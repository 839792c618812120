import RoomScript.Proofs.Build.Outputs

/-!
# Building sources at the same time

Several sources are built by jobs that share one session.  A job assembles its source, writes its
outputs one by one, and ends; which of the jobs goes on next is up to a schedule.  Any number of
jobs can be under way, so that whatever limit is set on them is covered.  An output is taken to be
written in one step: two jobs with one file write it one after the other and do not mix their
bytes.

* `Job.advance` is one step of a job, and `Moment.after` are the steps of a schedule;
* `Moment.Sound` says what the jobs have done so far, and `Moment.sound_after` that it holds at
  every moment;
* `Moment.exists_schedule` says that building one source after another is one of the schedules.
-/

namespace RoomScript.Build

/-! ## Jobs -/

/-- How far the building of a source has come. -/
inductive Stage where
  | waiting
  /-- The source has been assembled, and some outputs are still to be written. -/
  | writing (script : Script) (left : List Output)
  | built (script : Script)
  | faulty
  | failed (e : Error)

/-- The building of one source. -/
structure Job where
  stage : Stage := .waiting
  /-- The files written so far, with what was put into them. -/
  written : List (String × ByteArray) := []

/-- What came of a source, when its job has ended. -/
def Job.result? (job : Job) : Option (Except Error Result) :=
  match job.stage with
  | .waiting | .writing .. => none
  | .built script => some (.ok (.built (job.written.map (·.1)) script.size))
  | .faulty => some (.ok .faulty)
  | .failed e => some (.error e)

/-- The files of a result. -/
def Result.files : Result → List String
  | .faulty => []
  | .built files _ => files

/-- One step of a job: it assembles its source, writes the whole of an output, or ends. -/
def Job.advance (o : Options) (source : String) (now : Job × Session) : Job × Session :=
  let (job, s) := now
  match job.stage with
  | .waiting =>
    let outcome := assemble o source s
    let s := s.note .debug outcome.remarks
    match outcome.result with
    | .error faults => ({ job with stage := .faulty }, s.report faults)
    | .ok script => ({ job with stage := .writing script (outputs o source script s.now) }, s)
  | .writing script [] => ({ job with stage := .built script }, s)
  | .writing _ (.error e :: _) => ({ job with stage := .failed e }, s)
  | .writing script (.ok (path, data) :: left) =>
    match s.writeFile path data with
    | .error e => ({ job with stage := .failed (.writing e) }, s)
    | .ok s => ({ stage := .writing script left, written := job.written ++ [(path, data)] }, s)
  | .built _ | .faulty | .failed _ => (job, s)

/-- The jobs of some sources at one moment. -/
structure Moment (sources : List String) where
  session : Session
  jobs : Fin sources.length → Job

variable {o : Options} {sources : List String}

namespace Moment

/-- No job has begun. -/
def start (sources : List String) (s : Session) : Moment sources :=
  { session := s, jobs := fun _ => {} }

/-- One job goes on. -/
def step (o : Options) (m : Moment sources) (i : Fin sources.length) : Moment sources :=
  let next := Job.advance o (sources.get i) (m.jobs i, m.session)
  { session := next.2, jobs := Function.update m.jobs i next.1 }

/-- Jobs go on as a schedule says. -/
def after (o : Options) (m : Moment sources) (schedule : List (Fin sources.length)) :
    Moment sources :=
  schedule.foldl (step o) m

theorem step_session (m : Moment sources) (i : Fin sources.length) :
    (m.step o i).session = (Job.advance o (sources.get i) (m.jobs i, m.session)).2 := rfl

theorem step_jobs_self (m : Moment sources) (i : Fin sources.length) :
    (m.step o i).jobs i = (Job.advance o (sources.get i) (m.jobs i, m.session)).1 :=
  Function.update_self i _ _

theorem step_jobs_of_ne (m : Moment sources) {i j : Fin sources.length} (apart : j ≠ i) :
    (m.step o i).jobs j = m.jobs j :=
  Function.update_of_ne apart _ _

theorem after_append (m : Moment sources) (first second : List (Fin sources.length)) :
    m.after o (first ++ second) = (m.after o first).after o second :=
  List.foldl_append

@[simp] theorem after_nil (m : Moment sources) : m.after o [] = m := rfl

theorem after_concat (m : Moment sources) (schedule : List (Fin sources.length))
    (i : Fin sources.length) : m.after o (schedule ++ [i]) = (m.after o schedule).step o i :=
  List.foldl_concat ..

end Moment

/-! ## One step -/

theorem writeFile_eq_ok {s s' : Session} {path : String} {data : ByteArray}
    (ok : s.writeFile path data = .ok s') :
    s.tree.write path data = .ok s'.tree ∧ s'.now = s.now ∧ s'.out = s.out := by
  unfold Session.writeFile at ok
  split at ok
  · rename_i tree written
    cases ok
    exact ⟨written, rfl, rfl⟩
  · cases ok

namespace Job

/-- All that a step can do. -/
theorem advance_cases (o : Options) (source : String) (job : Job) (s : Session) :
    (∃ script, job.stage = .waiting ∧ (assemble o source s).result = .ok script ∧
      advance o source (job, s) =
        ({ job with stage := .writing script (outputs o source script s.now) },
          s.note .debug (assemble o source s).remarks)) ∨
    (∃ script path data left s', job.stage = .writing script (.ok (path, data) :: left) ∧
      s.writeFile path data = .ok s' ∧ advance o source (job, s) =
        ({ stage := .writing script left, written := job.written ++ [(path, data)] }, s')) ∨
    (∃ script, job.stage = .writing script [] ∧
      advance o source (job, s) = ({ job with stage := .built script }, s)) ∨
    (∃ stage s', (stage = .faulty ∨ ∃ e, stage = .failed e) ∧
      s'.tree = s.tree ∧ s'.now = s.now ∧ s'.out = s.out ∧
      advance o source (job, s) = ({ job with stage }, s')) ∨
    advance o source (job, s) = (job, s) := by
  obtain ⟨stage, written⟩ := job
  unfold advance
  cases stage with
  | waiting =>
    cases made : (assemble o source s).result with
    | error faults =>
      exact .inr (.inr (.inr (.inl ⟨.faulty,
        (s.note .debug (assemble o source s).remarks).report faults, .inl rfl, rfl, rfl, rfl,
        by simp only [made]⟩)))
    | ok script => exact .inl ⟨script, rfl, rfl, by simp only [made]; rfl⟩
  | writing script left =>
    match left with
    | [] => exact .inr (.inr (.inl ⟨script, rfl, rfl⟩))
    | .error e :: left => exact .inr (.inr (.inr (.inl ⟨_, s, .inr ⟨e, rfl⟩, rfl, rfl, rfl, rfl⟩)))
    | .ok (path, data) :: left =>
      cases written' : s.writeFile path data with
      | error e =>
        exact .inr (.inr (.inr (.inl ⟨.failed (.writing e), s, .inr ⟨_, rfl⟩, rfl, rfl, rfl,
          by simp only [written']⟩)))
      | ok s' =>
        exact .inr (.inl ⟨script, path, data, left, s', rfl, written', by simp only [written']⟩)
  | built | faulty | failed => exact .inr (.inr (.inr (.inr rfl)))

/-- What a job has written are the first outputs of its script, and all of them when it is built. -/
def Follows (o : Options) (source : String) (now : Timestamp) (made : Script → Prop) (job : Job) :
    Prop :=
  match job.stage with
  | .waiting => job.written = []
  | .writing script left => made script ∧ outputs o source script now = job.written.map .ok ++ left
  | .built script => made script ∧ outputs o source script now = job.written.map .ok
  | .faulty | .failed _ => True

theorem Follows.mono {source : String} {now : Timestamp} {made made' : Script → Prop} {job : Job}
    (follows : job.Follows o source now made) (wider : ∀ script, made script → made' script) :
    job.Follows o source now made' := by
  unfold Follows at follows ⊢
  split <;> simp_all

theorem follows_advance {source : String} {made : Script → Prop} {job : Job} {s : Session}
    (follows : job.Follows o source s.now made)
    (reads : ∀ script, job.stage = .waiting → (assemble o source s).result = .ok script →
      made script) :
    (advance o source (job, s)).1.Follows o source s.now made := by
  rcases advance_cases o source job s with ⟨script, waits, ok, next⟩ |
    ⟨script, path, data, left, s', writes, -, next⟩ | ⟨script, writes, next⟩ |
    ⟨stage, s', ends, -, -, -, next⟩ | next <;> rw [next]
  · rw [Follows, waits] at follows
    exact ⟨reads script waits ok, by simp [follows]⟩
  · rw [Follows, writes] at follows
    exact ⟨follows.1, by simpa using follows.2⟩
  · rw [Follows, writes] at follows
    exact ⟨follows.1, by simpa using follows.2⟩
  · rcases ends with rfl | ⟨e, rfl⟩ <;> trivial
  · exact follows

/-- A job neither prints nor sets the time. -/
theorem quiet_advance (o : Options) (source : String) (job : Job) (s : Session) :
    (advance o source (job, s)).2.now = s.now ∧ (advance o source (job, s)).2.out = s.out := by
  rcases advance_cases o source job s with ⟨script, -, -, next⟩ |
    ⟨script, path, data, left, s', -, ok, next⟩ | ⟨script, -, next⟩ |
    ⟨stage, s', -, -, now, out, next⟩ | next <;> rw [next]
  · exact ⟨rfl, rfl⟩
  · exact (writeFile_eq_ok ok).2
  · exact ⟨rfl, rfl⟩
  · exact ⟨now, out⟩
  · exact ⟨rfl, rfl⟩

/-- A step changes the tree only by writing a file, which the job keeps record of. -/
theorem tree_advance (o : Options) (source : String) (job : Job) (s : Session) :
    ((advance o source (job, s)).2.tree = s.tree ∧
      (advance o source (job, s)).1.written = job.written) ∨
    ∃ path data, s.tree.write path data = .ok (advance o source (job, s)).2.tree ∧
      (advance o source (job, s)).1.written = job.written ++ [(path, data)] := by
  rcases advance_cases o source job s with ⟨script, waits, ok, next⟩ |
    ⟨script, path, data, left, s', writes, ok, next⟩ | ⟨script, writes, next⟩ |
    ⟨stage, s', ends, same, -, -, next⟩ | next <;> rw [next]
  · exact .inl ⟨rfl, rfl⟩
  · exact .inr ⟨path, data, (writeFile_eq_ok ok).1, rfl⟩
  · exact .inl ⟨rfl, rfl⟩
  · exact .inl ⟨same, rfl⟩
  · exact .inl ⟨rfl, rfl⟩

end Job

/-! ## All jobs -/

namespace Moment

/-- A job has written a file, in which it has put these bytes. -/
def Wrote (m : Moment sources) (path : String) (data : ByteArray) : Prop :=
  ∃ i, (path, data) ∈ (m.jobs i).written

/-- Every file that was written holds what was put into it on some path. -/
def Stored (m : Moment sources) : Prop :=
  ∀ path data, m.Wrote path data → ∃ place path' data', m.Wrote path' data' ∧
    m.session.tree.follow path = .ok (.found place (.file data')) ∧
    m.session.tree.follow path' = .ok (.found place (.file data'))

theorem wrote_step {m : Moment sources} {i : Fin sources.length} {new : List (String × ByteArray)}
    (next : ((m.step o i).jobs i).written = (m.jobs i).written ++ new) {path : String}
    {data : ByteArray} :
    (m.step o i).Wrote path data ↔ m.Wrote path data ∨ (path, data) ∈ new := by
  constructor
  · rintro ⟨j, mem⟩
    by_cases same : j = i
    · rw [same, next] at mem
      exact (List.mem_append.1 mem).imp_left fun old => ⟨i, old⟩
    · rw [step_jobs_of_ne m same] at mem
      exact .inl ⟨j, mem⟩
  · rintro (⟨j, mem⟩ | mem)
    · by_cases same : j = i
      · refine ⟨i, ?_⟩
        rw [next, ← same]
        exact List.mem_append_left _ mem
      · exact ⟨j, by rwa [step_jobs_of_ne m same]⟩
    · refine ⟨i, ?_⟩
      rw [next]
      exact List.mem_append_right _ mem

theorem stored_step {m : Moment sources} (stored : m.Stored) (i : Fin sources.length) :
    (m.step o i).Stored := by
  rcases Job.tree_advance o (sources.get i) (m.jobs i) m.session with
    ⟨tree, quiet⟩ | ⟨path, data, ok, more⟩
  · have same : ∀ path data, (m.step o i).Wrote path data ↔ m.Wrote path data := fun path data => by
      have next : ((m.step o i).jobs i).written = (m.jobs i).written ++ [] := by
        rw [step_jobs_self, quiet, List.append_nil]
      rw [wrote_step next]
      simp
    intro path data wrote
    obtain ⟨place, path', data', wrote', first, second⟩ := stored path data ((same _ _).1 wrote)
    exact ⟨place, path', data', (same _ _).2 wrote', by rw [step_session, tree, first],
      by rw [step_session, tree, second]⟩
  · have wrote : ∀ path' data', (m.step o i).Wrote path' data' ↔
        m.Wrote path' data' ∨ (path', data') = (path, data) := fun path' data' => by
      rw [wrote_step (by rw [step_jobs_self, more]), List.mem_singleton]
    intro path' data' wrote'
    rcases (wrote _ _).1 wrote' with old | new
    · -- The file is still what it was, or it is the one that has been written to.
      obtain ⟨place, path'', data'', wrote'', first, second⟩ := stored path' data' old
      rcases FileTree.follow_of_write ok place data'' with kept | ⟨found, moved⟩
      · exact ⟨place, path'', data'', (wrote _ _).2 (.inl wrote''), kept _ first, kept _ second⟩
      · exact ⟨place, path, data, (wrote _ _).2 (.inr rfl), moved _ first, found⟩
    · cases new
      obtain ⟨-, place, found, -⟩ := FileTree.write_eq_ok ok
      exact ⟨place, path, data, (wrote _ _).2 (.inr rfl), found, found⟩

/-- A script was assembled from the source of a job, at the moment of a schedule when the job had
its first step. -/
def Assembled (o : Options) (m : Moment sources) (schedule : List (Fin sources.length))
    (i : Fin sources.length) (script : Script) : Prop :=
  ∃ before, before ++ [i] <+: schedule ∧ ((m.after o before).jobs i).stage = .waiting ∧
    (assemble o (sources.get i) (m.after o before).session).result = .ok script

/-- What holds at every moment. -/
structure Sound (o : Options) (m : Moment sources) (schedule : List (Fin sources.length)) :
    Prop where
  now : (m.after o schedule).session.now = m.session.now
  out : (m.after o schedule).session.out = m.session.out
  follows : ∀ i, ((m.after o schedule).jobs i).Follows o (sources.get i) m.session.now
    (m.Assembled o schedule i)
  stored : (m.after o schedule).Stored

/-- The schedule is taken from its end: one more step keeps what holds before it. -/
theorem sound_after (s : Session) (schedule : List (Fin sources.length)) :
    Sound o (start sources s) schedule := by
  induction schedule using List.reverseRecOn with
  | nil =>
    refine ⟨rfl, rfl, fun i => rfl, ?_⟩
    rintro path data ⟨i, mem⟩
    cases mem
  | append_singleton schedule i ih =>
    obtain ⟨now, out⟩ := Job.quiet_advance o (sources.get i)
      (((start sources s).after o schedule).jobs i) ((start sources s).after o schedule).session
    have further : ∀ {j script}, (start sources s).Assembled o schedule j script →
        (start sources s).Assembled o (schedule ++ [i]) j script :=
      fun ⟨before, first, made⟩ => ⟨before, first.trans (List.prefix_append _ _), made⟩
    refine ⟨?_, ?_, fun j => ?_, ?_⟩ <;> rw [after_concat]
    · exact now.trans ih.now
    · exact out.trans ih.out
    · by_cases same : j = i
      · subst same
        have follows := (ih.follows j).mono fun _ => further
        rw [← ih.now] at follows
        rw [step_jobs_self, ← ih.now]
        exact Job.follows_advance follows fun script waits made =>
          ⟨schedule, List.prefix_rfl, waits, made⟩
      · rw [step_jobs_of_ne _ same]
        exact (ih.follows j).mono fun _ => further
    · exact stored_step ih.stored i

/-- All jobs have ended, with these results. -/
def Ended (m : Moment sources) (results : List (Except Error Result)) : Prop :=
  List.ofFn (fun i => (m.jobs i).result?) = results.map some

theorem Ended.length_eq {m : Moment sources} {results : List (Except Error Result)}
    (ended : m.Ended results) : results.length = sources.length := by
  have length := congrArg List.length ended
  rw [List.length_ofFn, List.length_map] at length
  exact length.symm

/-- A job whose source is not faulty has built it. -/
theorem Ended.exists_built {m : Moment sources} {all : List Result}
    (ended : m.Ended (all.map .ok)) (built : .faulty ∉ all) (i : Fin sources.length) :
    ∃ script, (m.jobs i).stage = .built script := by
  have listed : (m.jobs i).result? ∈ (all.map .ok).map some := by
    rw [← ended]
    exact List.mem_ofFn.2 ⟨i, rfl⟩
  rw [List.map_map] at listed
  obtain ⟨result, mem, came⟩ := List.mem_map.1 listed
  unfold Job.result? at came
  split at came
  · cases came
  · cases came
  · rename_i script here
    exact ⟨script, here⟩
  · cases came
    exact absurd mem built
  · cases came

/-- The files of all results are those that the jobs have written. -/
theorem Ended.files {m : Moment sources} {all : List Result} (ended : m.Ended (all.map .ok))
    (built : .faulty ∉ all) :
    all.flatMap Result.files = (List.ofFn fun i => (m.jobs i).written).flatten.map (·.1) := by
  choose script stage using ended.exists_built built
  have results : (fun i => (m.jobs i).result?) = fun i =>
      some (.ok (.built ((m.jobs i).written.map (·.1)) (script i).size)) := by
    funext i
    rw [Job.result?, stage]
  have injective : Function.Injective fun result : Result => some (Except.ok (ε := Error) result) :=
    fun _ _ same => Except.ok.inj (Option.some.inj same)
  have same : all = List.ofFn fun i =>
      Result.built ((m.jobs i).written.map (·.1)) (script i).size := by
    refine List.map_injective_iff.2 injective ?_
    have mapped : all.map (fun result => some (Except.ok (ε := Error) result)) =
        (all.map .ok).map some := by
      rw [List.map_map]
      rfl
    rw [mapped, ← ended, results, List.map_ofFn]
    rfl
  rw [same, List.flatMap_def, List.map_ofFn, List.map_flatten, List.map_ofFn]
  rfl

end Moment

/-! ## One after another -/

namespace Job

/-- What is left to be written is written when the job goes on by itself. -/
theorem exists_iterate_writing (o : Options) (source : String) (script : Script)
    (left : List Output) (written : List (String × ByteArray)) (s : Session) :
    ∃ n job, (advance o source)^[n] (⟨.writing script left, written⟩, s) =
        (job, (writeAll (written.map (·.1)) s left).2) ∧
      job.result? = some ((writeAll (written.map (·.1)) s left).1.map (.built · script.size)) := by
  induction left generalizing written s with
  | nil => exact ⟨1, _, rfl, rfl⟩
  | cons output left ih =>
    match output with
    | .error e => exact ⟨1, _, rfl, rfl⟩
    | .ok (path, data) =>
      rw [writeAll]
      cases ok : s.writeFile path data with
      | error e => exact ⟨1, ⟨.failed (.writing e), written⟩, by simp [advance, ok], rfl⟩
      | ok s' =>
        obtain ⟨n, job, ran, came⟩ := ih (written ++ [(path, data)]) s'
        rw [List.map_append] at ran came
        refine ⟨n + 1, job, ?_, came⟩
        rw [Function.iterate_succ_apply]
        have first : advance o source (⟨.writing script (.ok (path, data) :: left), written⟩, s) =
            (⟨.writing script left, written ++ [(path, data)]⟩, s') := by simp only [advance, ok]
        rw [first, ran]
        rfl

theorem one_of_error {source : String} {s : Session} {faults : List Diagnostic}
    (made : (assemble o source s).result = .error faults) :
    one o source s =
      (.ok .faulty, (s.note .debug (assemble o source s).remarks).report faults) := by
  unfold one
  generalize assemble o source s = outcome at made ⊢
  simp only [made]

theorem one_of_ok {source : String} {s : Session} {script : Script}
    (made : (assemble o source s).result = .ok script) :
    one o source s =
      ((writeAll [] (s.note .debug (assemble o source s).remarks)
          (outputs o source script s.now)).1.map (.built · script.size),
        (writeAll [] (s.note .debug (assemble o source s).remarks)
          (outputs o source script s.now)).2) := by
  unfold one
  generalize assemble o source s = outcome at made ⊢
  have now : (s.note .debug outcome.remarks).now = s.now := rfl
  simp only [made, write_eq_writeAll, now]
  generalize writeAll [] (s.note .debug outcome.remarks) (outputs o source script s.now) = ended
  obtain ⟨_ | files, s'⟩ := ended <;> rfl

theorem advance_of_ok {source : String} {s : Session} {script : Script}
    (made : (assemble o source s).result = .ok script) :
    advance o source ({}, s) = ({ stage := .writing script (outputs o source script s.now) },
      s.note .debug (assemble o source s).remarks) := by
  simp only [advance, made]
  rfl

theorem advance_of_write {source path : String} {s : Session} {script : Script} {data : ByteArray}
    {left : List Output} {written : List (String × ByteArray)} {t : FileTree}
    (ok : s.tree.write path data = .ok t) :
    advance o source (⟨.writing script (.ok (path, data) :: left), written⟩, s) =
      (⟨.writing script left, written ++ [(path, data)]⟩, { s with tree := t }) := by
  simp only [advance, Session.writeFile, ok]

/-- A source is built when its job goes on by itself. -/
theorem exists_iterate (o : Options) (source : String) (s : Session) :
    ∃ n job, (advance o source)^[n] ({}, s) = (job, (one o source s).2) ∧
      job.result? = some (one o source s).1 := by
  cases made : (assemble o source s).result with
  | error faults =>
    rw [one_of_error made]
    refine ⟨1, { stage := .faulty }, ?_, rfl⟩
    rw [Function.iterate_one]
    simp only [advance, made]
  | ok script =>
    obtain ⟨n, job, ran, came⟩ := exists_iterate_writing o source script
      (outputs o source script s.now) [] (s.note .debug (assemble o source s).remarks)
    rw [one_of_ok made]
    exact ⟨n + 1, job, by rw [Function.iterate_succ_apply, advance_of_ok made, ran]; rfl, came⟩

end Job

namespace Moment

/-- One job goes on for a while. -/
theorem after_replicate (m : Moment sources) (i : Fin sources.length) (n : ℕ) :
    m.after o (List.replicate n i) =
      { session := ((Job.advance o (sources.get i))^[n] (m.jobs i, m.session)).2
        jobs := Function.update m.jobs i
          ((Job.advance o (sources.get i))^[n] (m.jobs i, m.session)).1 } := by
  induction n with
  | zero => simp
  | succ n ih =>
    rw [List.replicate_succ', after_concat, ih, step]
    simp only [Function.update_self, Function.update_idem, Function.iterate_succ_apply',
      Prod.mk.eta]

/-- The sources from one on are built when their jobs go on one after another. -/
theorem exists_after_drop (o : Options) {k : ℕ} (within : k ≤ sources.length) (m : Moment sources)
    (fresh : ∀ i : Fin sources.length, k ≤ i → m.jobs i = {}) :
    ∃ schedule, (∀ i : Fin sources.length, i < k → (m.after o schedule).jobs i = m.jobs i) ∧
      (m.after o schedule).session = (each o (sources.drop k) m.session).2 ∧
      (List.ofFn fun i => ((m.after o schedule).jobs i).result?).drop k =
        (each o (sources.drop k) m.session).1.map some := by
  induction within using Nat.decreasingInduction generalizing m with
  | self =>
    refine ⟨[], fun i _ => rfl, ?_, ?_⟩
    · rw [List.drop_length]
      rfl
    · rw [List.drop_length, List.drop_eq_nil_of_le (by simp)]
      rfl
  | of_succ k more ih =>
    let i : Fin sources.length := ⟨k, more⟩
    obtain ⟨n, job, ran, came⟩ := Job.exists_iterate o (sources.get i) m.session
    have first := m.after_replicate (o := o) i n
    rw [fresh i le_rfl, ran] at first
    obtain ⟨schedule, kept, session, results⟩ := ih (m.after o (List.replicate n i)) (by
      intro j later
      have apart : j ≠ i := fun same => by
        rw [same] at later
        exact absurd later (Nat.not_succ_le_self k)
      rw [first]
      exact (Function.update_of_ne apart _ _).trans (fresh j (Nat.le_of_succ_le later)))
    have all := after_append (o := o) m (List.replicate n i) schedule
    have own : ((m.after o (List.replicate n i)).after o schedule).jobs i = job := by
      rw [kept i (Nat.lt_succ_self k), first]
      exact Function.update_self i job m.jobs
    have next : (m.after o (List.replicate n i)).session = (one o (sources.get i) m.session).2 := by
      rw [first]
    have split : sources.drop k = sources.get i :: sources.drop (k + 1) :=
      List.drop_eq_getElem_cons more
    rw [next] at session results
    refine ⟨List.replicate n i ++ schedule, ?_, ?_, ?_⟩ <;> rw [all]
    · intro j before
      have apart : j ≠ i := fun same => by
        rw [same] at before
        exact absurd before (lt_irrefl k)
      rw [kept j (Nat.lt_succ_of_lt before), first]
      exact Function.update_of_ne apart _ _
    · rw [session, split]
      rfl
    · rw [List.drop_eq_getElem_cons (by simpa using more), results, split, List.getElem_ofFn]
      have head : (((m.after o (List.replicate n i)).after o schedule).jobs i).result? =
          some (one o (sources.get i) m.session).1 := by rw [own, came]
      exact congrArg (· :: _) head

/-- Building one source after another is one of the schedules. -/
theorem exists_schedule (o : Options) (sources : List String) (s : Session) :
    ∃ schedule, ((start sources s).after o schedule).Ended (each o sources s).1 ∧
      ((start sources s).after o schedule).session = (each o sources s).2 := by
  obtain ⟨schedule, -, session, results⟩ :=
    exists_after_drop o (Nat.zero_le _) (start sources s) fun _ _ => rfl
  exact ⟨schedule, results, session⟩

end Moment

end RoomScript.Build
