import RoomScript.Disk
import RoomScript.Proofs.Macro.Steps
import RoomScript.Proofs.Preprocess.Nesting

/-!
# The end of an expanded text

Pulling tokens from a stream comes to the end token after finitely many pulls, whatever is done to
the macros and to the files between two pulls.

* `NoEnd` says that no token of a list is an end token; what a macro call, a turn and a run of turns
  produce is such a list (`noEnd_expandOnto`, `Work.turn_sound`, `noEnd_run`);
* `Stream.Sound` is the invariant of a stream between two pulls;
* `Stream.next_less` says that a pull that does not give the end token leaves less to come, and
  `Stream.next_of_ended` that the end token stays.
-/

namespace RoomScript

/-- No token of the list is an end token. -/
def NoEnd (ts : List Token) : Prop :=
  ∀ t ∈ ts, t.kind ≠ .eof

theorem noEnd_nil : NoEnd [] := by
  intro t ht
  cases ht

theorem NoEnd.append {ts us : List Token} (hts : NoEnd ts) (hus : NoEnd us) : NoEnd (ts ++ us) := by
  intro t ht
  rcases List.mem_append.1 ht with h | h
  · exact hts t h
  · exact hus t h

theorem noEnd_singleton {t : Token} (h : t.kind ≠ .eof) : NoEnd [t] := by
  intro u hu
  rwa [List.mem_singleton.1 hu]

/-! ## Expanding makes no end token -/

/-- Expanding a list passes on tokens in front of the end only. -/
theorem noEnd_expandOnto (table : Macro.Table) (condition : Bool) (active : List String)
    (r : Reader) (out : Array Token) (hout : NoEnd out.toList) :
    NoEnd (Macro.expandOnto table condition active r out).1.toList := by
  fun_induction Macro.expandOnto table condition active r out with
  | case1 => exact hout
  | case2 active r out seen front _ _ ih =>
    exact ih (by simpa using hout.append (noEnd_singleton front))
  | case3 active r out seen front ts after found ih =>
    have numbers : NoEnd ts := fun t mem => by simp [Reader.kind_of_replace_tokens found t mem]
    exact ih (by simpa using hout.append numbers)
  | case4 active r out seen front m ts after found inner ihInner ih =>
    exact ih (by simpa using hout.append (ihInner noEnd_nil))

/-- What a step may produce: no end token within the text, and one at the end of the file. -/
def Step.Sound : Step → Prop
  | .emit ts => NoEnd ts
  | .enter _ _ => True
  | .stop eof => eof.kind = .eof

theorem Work.turnEnd_sound (w : Work) {eof : Token} (h : eof.kind = .eof) :
    (w.turnEnd eof).1.Sound := by
  unfold turnEnd
  split
  · exact h
  · exact noEnd_nil

theorem Work.turnBranchEnd_sound (w : Work) (directive : Token) (stray : Cause) :
    (w.turnBranchEnd directive stray).1.Sound := by
  unfold turnBranchEnd
  split <;> exact noEnd_nil

theorem Work.turnIf_sound (w : Work) (directive : Token) : (w.turnIf directive).1.Sound := by
  unfold turnIf
  split <;> exact noEnd_nil

theorem Work.turnInclude_sound (w : Work) : w.turnInclude.1.Sound := by
  unfold turnInclude
  simp only
  split
  · exact noEnd_nil
  · trivial

theorem Work.turnDefine_sound (w : Work) : w.turnDefine.1.Sound := by
  unfold turnDefine
  split <;> exact noEnd_nil

theorem Work.turnToken_sound (w : Work) {t : Token} (front : t.kind ≠ .eof) :
    (w.turnToken t).1.Sound := by
  unfold turnToken
  split
  · exact noEnd_singleton front
  · rename_i called
    rw [Reader.call_tokens called]
    exact noEnd_nil
  · exact noEnd_expandOnto _ _ _ _ #[] noEnd_nil

/-- A turn puts no end token into the text, and it stops at an end token only. -/
theorem Work.turn_sound (w : Work) : w.turn.1.Sound := by
  unfold turn
  simp only
  split
  · rename_i atEnd
    exact turnEnd_sound _ atEnd
  · rename_i front
    split
    · split
      · exact turnBranchEnd_sound ..
      · exact turnBranchEnd_sound ..
      · exact turnBranchEnd_sound ..
      · exact turnIf_sound ..
      · exact turnInclude_sound _
      · exact turnDefine_sound _
      · exact turnToken_sound _ front
    · exact turnToken_sound _ front

theorem Work.noEnd_of_turn_emit {w w' : Work} {ts : List Token} (h : w.turn = (.emit ts, w')) :
    NoEnd ts := by
  have sound := w.turn_sound
  rwa [h] at sound

/-- A run of turns puts no end token into its text, and gives one only as the end of the file. -/
theorem noEnd_run (lib : Library) (chain : List String) (whole : Bool) (w : Work)
    (out : Array Token) (hout : NoEnd out.toList) :
    NoEnd (Work.run lib chain whole w out).1.toList ∧
      ∀ eof, (Work.run lib chain whole w out).2.1 = some eof → eof.kind = .eof := by
  fun_induction Work.run lib chain whole w out with
  | case1 chain whole w out eof w' taken =>
    refine ⟨hout, ?_⟩
    rintro _ ⟨⟩
    have sound := w.turn_sound
    rwa [taken] at sound
  | case2 chain whole w out ts w' taken _ =>
    refine ⟨by simpa using hout.append (Work.noEnd_of_turn_emit taken), ?_⟩
    rintro _ ⟨⟩
  | case3 chain whole w out ts w' taken _ ih =>
    exact ih (by simpa using hout.append (Work.noEnd_of_turn_emit taken))
  | case4 =>
    refine ⟨hout, ?_⟩
    rintro _ ⟨⟩
  | case5 _ _ _ _ _ _ _ _ _ _ _ _ _ ih => exact ih hout
  | case6 chain whole w out place quoted w₁ taken found data fetched w₂ brought last visited ran
      w₃ _ ih =>
    -- Of an included file the text is taken over, but not the end.
    have inner := (ih noEnd_nil).1
    rw [ran] at inner
    refine ⟨by simpa using hout.append inner, ?_⟩
    rintro _ ⟨⟩
  | case7 chain whole w out place quoted w₁ taken found data fetched w₂ brought last visited ran
      w₃ _ ihInner ih =>
    have inner := (ihInner noEnd_nil).1
    rw [ran] at inner
    exact ih (by simpa using hout.append inner)

/-! ## Streams -/

namespace Stream

/-- Between two pulls, the tokens that wait are no end tokens and the last one is. -/
structure Sound (s : Stream) : Prop where
  pending : NoEnd s.pending
  last : s.last.kind = .eof

theorem sound_stream (p : Preprocessor) (lib : Library) (path : String) :
    (p.stream lib path).1.Sound := by
  unfold Preprocessor.stream
  simp only
  split <;> exact ⟨noEnd_nil, rfl⟩

theorem Sound.fill {s : Stream} (hs : s.Sound) (lib : Library) (p : Preprocessor) :
    (s.fill lib p).1.Sound := by
  fun_induction Stream.fill lib p s with
  | case1 => exact hs
  | case2 p s _ out eof w ran =>
    have run := noEnd_run lib [s.path] false (s.work p) #[] noEnd_nil
    rw [ran] at run
    exact ⟨run.1, run.2 eof rfl⟩
  | case3 p s _ out w ran ih =>
    have run := noEnd_run lib [s.path] false (s.work p) #[] noEnd_nil
    rw [ran] at run
    exact ih ⟨run.1, hs.last⟩

/-- Filling goes on until there is a token or the end is reached. -/
theorem done_of_fill {lib : Library} {p : Preprocessor} {s : Stream}
    (empty : (s.fill lib p).1.pending = []) : (s.fill lib p).1.done = true := by
  fun_induction Stream.fill lib p s with
  | case1 p s ready =>
    have nothing : s.pending = [] := empty
    simpa [nothing] using ready
  | case2 => rfl
  | case3 p s _ out w ran ih => exact ih empty

theorem fill_of_ready {s : Stream} (ready : s.pending ≠ [] ∨ s.done = true) (lib : Library)
    (p : Preprocessor) : s.fill lib p = (s, p) := by
  rw [fill, if_pos (by simpa using ready)]

theorem next_of_empty {lib : Library} {p : Preprocessor} {s : Stream}
    (empty : (s.fill lib p).1.pending = []) :
    s.next lib p = ((s.fill lib p).1.last, (s.fill lib p).1, (s.fill lib p).2) := by
  simp only [next, empty]

theorem next_of_cons {lib : Library} {p : Preprocessor} {s : Stream} {t : Token}
    {rest : List Token} (waiting : (s.fill lib p).1.pending = t :: rest) :
    s.next lib p = (t, { (s.fill lib p).1 with pending := rest }, (s.fill lib p).2) := by
  simp only [next, waiting]

theorem Sound.next {s : Stream} (hs : s.Sound) (lib : Library) (p : Preprocessor) :
    (s.next lib p).2.1.Sound := by
  have filled := hs.fill lib p
  cases waiting : (s.fill lib p).1.pending with
  | nil =>
    rw [next_of_empty waiting]
    exact filled
  | cons t rest =>
    rw [next_of_cons waiting]
    exact ⟨fun u hu => filled.pending u (by simp [waiting, hu]), filled.last⟩

/-- What is still to come: statements first, then tokens that wait. -/
def left (s : Stream) : ℕ × ℕ :=
  (s.size, s.pending.length)

/-- A pull that does not give the end token leaves less to come. -/
theorem next_less {s : Stream} (hs : s.Sound) {lib : Library} {p : Preprocessor}
    (going : (s.next lib p).1.kind ≠ .eof) :
    Prod.Lex (· < ·) (· < ·) (s.next lib p).2.1.left s.left := by
  cases waiting : (s.fill lib p).1.pending with
  | nil =>
    rw [next_of_empty waiting] at going
    exact absurd (hs.fill lib p).last going
  | cons t rest =>
    rw [next_of_cons waiting]
    -- Either a statement has been used up for the token, or the token has been waiting.
    by_cases empty : s.pending = []
    · have smaller := fill_size_lt lib p s empty (by simp [waiting])
      exact Prod.Lex.left _ _ smaller
    · rw [fill_of_ready (Or.inl empty)] at waiting ⊢
      have same : s.pending = t :: rest := waiting
      refine Prod.Lex.right _ ?_
      simp [same]

/-- Once the end token has been given, nothing is left but the end token. -/
theorem next_of_end {s : Stream} (hs : s.Sound) {lib : Library} {p : Preprocessor}
    (ended : (s.next lib p).1.kind = .eof) :
    (s.next lib p).2.1.pending = [] ∧ (s.next lib p).2.1.done = true ∧
      (s.next lib p).2.1.last = (s.next lib p).1 := by
  cases waiting : (s.fill lib p).1.pending with
  | nil =>
    rw [next_of_empty waiting]
    exact ⟨waiting, done_of_fill waiting, rfl⟩
  | cons t rest =>
    rw [next_of_cons waiting] at ended
    exact absurd ended ((hs.fill lib p).pending t (by simp [waiting]))

/-- A stream that has come to its end gives its end token and stays as it is. -/
theorem next_of_ended {s : Stream} (empty : s.pending = []) (done : s.done = true) (lib : Library)
    (p : Preprocessor) : s.next lib p = (s.last, s, p) := by
  have same := fill_of_ready (Or.inr done) lib p
  rw [next_of_empty (by rw [same]; exact empty), same]

/-! ## Pulling again and again -/

/-- Pull a token after the preprocessor has been changed, with the files of a disk. -/
def pull (disk : Disk) (edit : Preprocessor → Preprocessor) (state : Stream × Preprocessor) :
    Token × Stream × Preprocessor :=
  state.1.next disk.library (edit state.2)

/-- A stream and its preprocessor after a number of pulls.  Before pull `n` the preprocessor is
changed by `edit n`, and during it the files are those of `disks n`. -/
def after (disks : ℕ → Disk) (edit : ℕ → Preprocessor → Preprocessor)
    (start : Stream × Preprocessor) : ℕ → Stream × Preprocessor
  | 0 => start
  | n + 1 => (pull (disks n) (edit n) (after disks edit start n)).2

/-- The token that a pull gives. -/
def pulled (disks : ℕ → Disk) (edit : ℕ → Preprocessor → Preprocessor)
    (start : Stream × Preprocessor) (n : ℕ) : Token :=
  (pull (disks n) (edit n) (after disks edit start n)).1

variable {disks : ℕ → Disk} {edit : ℕ → Preprocessor → Preprocessor}
  {start : Stream × Preprocessor}

theorem sound_after (hs : start.1.Sound) (n : ℕ) : (after disks edit start n).1.Sound := by
  induction n with
  | zero => exact hs
  | succ n ih => exact ih.next _ _

/-- Some pull gives an end token, because what is still to come cannot get less for ever. -/
theorem exists_pulled_end (hs : start.1.Sound) : ∃ n, (pulled disks edit start n).kind = .eof := by
  by_contra never
  have descends : ∀ n, Prod.Lex (· < ·) (· < ·) (after disks edit start (n + 1)).1.left
      (after disks edit start n).1.left :=
    fun n => next_less (sound_after hs n) fun ended => never ⟨n, ended⟩
  obtain ⟨n, stays⟩ := WellFounded.not_rel_apply_succ (r := Prod.Lex (· < ·) (· < ·))
    fun n => (after disks edit start n).1.left
  exact stays (descends n)

/-- After an end token every pull gives that end token. -/
theorem pulled_of_end (hs : start.1.Sound) {n : ℕ} (ended : (pulled disks edit start n).kind = .eof)
    (k : ℕ) : pulled disks edit start (n + k) = pulled disks edit start n := by
  have stays : ∀ k, (after disks edit start (n + k + 1)).1.pending = [] ∧
      (after disks edit start (n + k + 1)).1.done = true ∧
        (after disks edit start (n + k + 1)).1.last = pulled disks edit start n := by
    intro k
    induction k with
    | zero => exact next_of_end (sound_after hs n) ended
    | succ k ih =>
      obtain ⟨empty, done, last⟩ := ih
      rw [← Nat.add_assoc, after, pull, next_of_ended empty done]
      exact ⟨empty, done, last⟩
  cases k with
  | zero => rfl
  | succ k =>
    obtain ⟨empty, done, last⟩ := stays k
    rw [← Nat.add_assoc, pulled, pull, next_of_ended empty done]
    exact last

/-- **Preprocessing always ends with one end token.**  From any file of any disk, with any macros
defined beforehand and whatever is done to macros and files between two pulls, some pull gives an
end token, no earlier one does, and all later ones give the same token.  While a token is pulled, no
file is expanded inside of itself, no macro is replaced inside of its own replacement, and
no expansion leads on for ever. -/
theorem pulled_reaches_end (disk : Disk) (disks : ℕ → Disk)
    (edit : ℕ → Preprocessor → Preprocessor) (p : Preprocessor) (path : String) :
    let start := p.stream disk.library path
    (∃ n, (pulled disks edit start n).kind = .eof ∧
      (∀ i < n, (pulled disks edit start i).kind ≠ .eof) ∧
        ∀ i ≥ n, pulled disks edit start i = pulled disks edit start n) ∧
    ∀ n, (∀ a, (after disks edit start n).1.During (disks n).library
        (edit n (after disks edit start n).2) a → a.NoRepeats) ∧
      WellFounded fun b a => Activity.Calls (disks n).library a b := by
  intro start
  have hs : start.1.Sound := sound_stream p disk.library path
  refine ⟨?_, fun n => ⟨fun a h => h.noRepeats, Activity.wellFounded_calls _⟩⟩
  classical
  have ends : ∃ n, (pulled disks edit start n).kind = .eof := exists_pulled_end hs
  refine ⟨Nat.find ends, Nat.find_spec ends, fun i hi => Nat.find_min ends hi, fun i hi => ?_⟩
  obtain ⟨k, rfl⟩ := Nat.exists_eq_add_of_le hi
  exact pulled_of_end hs (Nat.find_spec ends) k

end Stream

end RoomScript
