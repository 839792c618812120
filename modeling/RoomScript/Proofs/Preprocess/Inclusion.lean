import RoomScript.Proofs.Preprocess.Ending
import RoomScript.Proofs.Preprocess.Plain
import RoomScript.Proofs.Preprocess.Selection

/-!
# Including a file is expanding it

A file that is brought in by `#include` gives the text that its expansion on its own gives, and the
file around it goes on behind the quoted path, whatever the file leaves open.

* `Activity.Asks` says which files are asked for while an expansion goes on;
* `Work.run_append` says that a run does not see which files are open around it, as long as it does
  not ask for them;
* `Stream.collectOnto_eq_run` says that pulling a text statement by statement gives what one run to
  the end of the file gives;
* `Work.run_include` puts these together.
-/

namespace RoomScript

/-! ## Files that are asked for -/

/-- While an activity goes on, an `#include` asks for the file at `path`. -/
def Activity.Asks (lib : Library) (a : Activity) (path : String) : Prop :=
  ∃ (chain : List String) (whole : Bool) (w w' : Work) (place : Token) (quoted : String),
    Relation.ReflTransGen (Calls lib) a (.file chain whole w) ∧
      w.turn = (.enter place quoted, w') ∧ (lib.resolve (chain.headD "") quoted).path = path

/-- What is asked for in an activity is asked for in those that lead to it. -/
theorem Activity.Calls.asks {lib : Library} {a b : Activity} (calls : Calls lib a b) {path : String}
    (asked : b.Asks lib path) : a.Asks lib path := by
  obtain ⟨chain, whole, w, w', place, quoted, reaches, taken, resolved⟩ := asked
  exact ⟨chain, whole, w, w', place, quoted, .head calls reaches, taken, resolved⟩

/-- A turn that asks for a file does so itself. -/
theorem Activity.asks_of_turn {lib : Library} {chain : List String} {whole : Bool} {w w' : Work}
    {place : Token} {quoted : String} (taken : w.turn = (.enter place quoted, w')) :
    (Activity.file chain whole w).Asks lib (lib.resolve (chain.headD "") quoted).path :=
  ⟨chain, whole, w, w', place, quoted, .refl, taken, rfl⟩

namespace Activity

/-- A captured list asks for no file. -/
theorem not_asks_captured {lib : Library} {table : Macro.Table} {condition : Bool}
    {active : List String} {r : Reader} {path : String} :
    ¬(captured table condition active r).Asks lib path := by
  have stays : ∀ b, Relation.ReflTransGen (Calls lib) (captured table condition active r) b →
      ∃ active r, b = captured table condition active r := by
    intro b reaches
    induction reaches with
    | refl => exact ⟨active, r, rfl⟩
    | tail _ calls ih =>
      obtain ⟨active, r, rfl⟩ := ih
      cases calls <;> exact ⟨_, _, rfl⟩
  rintro ⟨chain, whole, w, w', place, quoted, reaches, -⟩
  obtain ⟨_, _, same⟩ := stays _ reaches
  cases same

/-- At a turn that puts out text, a file asks for what it asks for behind the turn. -/
theorem asks_of_emit {lib : Library} {chain : List String} {whole : Bool} {w w' : Work}
    {ts : List Token} {path : String} (taken : w.turn = (.emit ts, w'))
    (asked : (file chain whole w).Asks lib path) : (file chain whole w').Asks lib path := by
  obtain ⟨inner, _, v, v', place, quoted, reaches, entered, resolved⟩ := asked
  rcases reaches.cases_head with same | ⟨next, calls, rest⟩
  · cases same
    rw [taken] at entered
    cases entered
  · cases calls with
    | turn taken' _ =>
      rw [taken] at taken'
      cases taken'
      exact ⟨inner, _, v, v', place, quoted, rest, entered, resolved⟩
    | refuse taken' | enter taken' | resume taken' =>
      rw [taken] at taken'
      cases taken'
    | condition | call =>
      exact absurd ⟨inner, _, v, v', place, quoted, rest, entered, resolved⟩ not_asks_captured

/-- A file asks for nothing at its end. -/
theorem not_asks_of_stop {lib : Library} {chain : List String} {whole : Bool} {w w' : Work}
    {eof : Token} {path : String} (taken : w.turn = (.stop eof, w')) :
    ¬(file chain whole w).Asks lib path := by
  rintro ⟨inner, _, v, v', place, quoted, reaches, entered, resolved⟩
  rcases reaches.cases_head with same | ⟨next, calls, rest⟩
  · cases same
    rw [taken] at entered
    cases entered
  · cases calls with
    | turn taken' | refuse taken' | enter taken' | resume taken' =>
      rw [taken] at taken'
      cases taken'
    | condition | call =>
      exact not_asks_captured ⟨inner, _, v, v', place, quoted, rest, entered, resolved⟩

end Activity

/-! ## Files that are open around a run -/

theorem headD_append {chain : List String} (inside : chain ≠ []) (outer : List String) :
    (chain ++ outer).headD "" = chain.headD "" := by
  cases chain with
  | nil => exact absurd rfl inside
  | cons current chain => rfl

/-- An open file counts for those includes only that ask for it. -/
theorem Library.fetch_append {lib : Library} {chain outer : List String} {quoted : String}
    (inside : chain ≠ []) (apart : (lib.resolve (chain.headD "") quoted).path ∉ outer) :
    lib.fetch (chain ++ outer) quoted = lib.fetch chain quoted := by
  unfold fetch
  simp only [headD_append inside, List.mem_append, apart, or_false]

namespace Work

/-- A run does not see the files that are open around it, as long as it does not ask for them. -/
theorem run_append (lib : Library) (outer chain : List String) (whole : Bool) (w : Work)
    (out : Array Token) (inside : chain ≠ [])
    (apart : ∀ path, (Activity.file chain whole w).Asks lib path → path ∉ outer) :
    run lib (chain ++ outer) whole w out = run lib chain whole w out := by
  have noted : ∀ {chain : List String} (w : Work) (found : Resolution), chain ≠ [] →
      w.noting (chain ++ outer) found = w.noting chain found := by
    intro chain w found inside
    rw [noting, noting, headD_append inside]
  fun_induction run lib chain whole w out with
  | case1 chain whole w out eof w' taken => rw [run_of_stop taken]
  | case2 chain whole w out ts w' taken left =>
    rw [run_of_emit taken]
    exact if_pos left
  | case3 chain whole w out ts w' taken going ih =>
    rw [run_of_emit taken, if_neg going]
    refine ih inside fun path asked => apart path ?_
    exact (Activity.Calls.turn taken (Bool.eq_false_iff.2 going)).asks asked
  | case4 chain whole w out place quoted w' taken found cause fetched w'' left =>
    have same := Library.fetch_append inside (apart _ (Activity.asks_of_turn taken))
    rw [run_of_error taken (same.trans fetched)]
    exact if_pos left
  | case5 chain whole w out place quoted w' taken found cause fetched w'' going ih =>
    have same := Library.fetch_append inside (apart _ (Activity.asks_of_turn taken))
    rw [run_of_error taken (same.trans fetched)]
    refine (if_neg going).trans (ih inside fun path asked => apart path ?_)
    exact (Activity.Calls.refuse taken fetched (Bool.eq_false_iff.2 going)).asks asked
  | case6 chain whole w out place quoted w₁ taken found data fetched w₂ brought last visited ran
      w₃ left ih =>
    have same := Library.fetch_append inside (apart _ (Activity.asks_of_turn taken))
    have enters : Activity.Calls lib (.file chain whole w) _ := .enter taken fetched
    have inner : bring lib (chain ++ outer) w₁ found data = (brought, last, visited) := by
      rw [bring, noted _ _ inside, ← ran]
      exact ih (List.cons_ne_nil _ _) fun path asked => apart path (enters.asks asked)
    rw [run_of_ok taken (same.trans fetched), inner, noted _ _ inside]
    exact if_pos left
  | case7 chain whole w out place quoted w₁ taken found data fetched w₂ brought last visited ran
      w₃ going ihInner ih =>
    have same := Library.fetch_append inside (apart _ (Activity.asks_of_turn taken))
    have enters : Activity.Calls lib (.file chain whole w) _ := .enter taken fetched
    have inner : bring lib (chain ++ outer) w₁ found data = (brought, last, visited) := by
      rw [bring, noted _ _ inside, ← ran]
      exact ihInner (List.cons_ne_nil _ _) fun path asked => apart path (enters.asks asked)
    rw [run_of_ok taken (same.trans fetched), inner, noted _ _ inside]
    refine (if_neg going).trans (ih inside fun path asked => apart path ?_)
    exact (Activity.Calls.resume taken fetched ran (Bool.eq_false_iff.2 going)).asks asked

/-! ## Turns with the files they bring in -/

/-- One turn together with the file that it brings in, if it does: the text, the end token if the
file has come to its end, and the work behind it. -/
def pass (lib : Library) (chain : List String) (w : Work) : Array Token × Option Token × Work :=
  match w.turn with
  | (.stop eof, w') => (#[], some eof, w')
  | (.emit ts, w') => (ts.toArray, none, w')
  | (.enter place quoted, w') =>
    match lib.fetch chain quoted with
    | (found, .error cause) => (#[], none, w'.refuse place found cause)
    | (found, .ok data) =>
      ((bring lib chain w' found data).1, none,
        (w'.noting chain found).resume (bring lib chain w' found data).2.2)

section Pass

variable {lib : Library} {chain : List String}

/-- A run takes one turn after another. -/
theorem run_eq_pass (whole : Bool) (w : Work) (out : Array Token) : run lib chain whole w out =
    match pass lib chain w with
    | (ts, some eof, w') => (out ++ ts, some eof, w')
    | (ts, none, w') =>
      if w'.opened.isEmpty && !whole then (out ++ ts, none, w')
      else run lib chain whole w' (out ++ ts) := by
  rcases taken : w.turn with ⟨_ | _ | _, w'⟩
  · rename_i ts
    have passed : pass lib chain w = (ts.toArray, none, w') := by rw [pass, taken]
    have same : out ++ ts = out ++ ts.toArray := append_toList out ts.toArray
    rw [passed, run_of_emit taken]
    simp only [same]
  · rename_i place quoted
    rcases fetched : lib.fetch chain quoted with ⟨found, cause | data⟩
    · have passed : pass lib chain w = (#[], none, w'.refuse place found cause) := by
        simp only [pass, taken, fetched]
      rw [passed, run_of_error taken fetched]
      simp only [Array.append_empty]
    · have passed : pass lib chain w = ((bring lib chain w' found data).1, none,
          (w'.noting chain found).resume (bring lib chain w' found data).2.2) := by
        simp only [pass, taken, fetched]
      rw [passed, run_of_ok taken fetched]
      rfl
  · rename_i eof
    have passed : pass lib chain w = (#[], some eof, w') := by rw [pass, taken]
    rw [passed, run_of_stop taken]
    simp only [Array.append_empty]

/-- A turn that does not come to the end of the file leaves less to do. -/
theorem pass_lt {w w' : Work} {ts : Array Token} (passed : pass lib chain w = (ts, none, w')) :
    Prod.Lex (· < ·) (· < ·) w'.measure w.measure := by
  have turned : ∀ {w₁ : Work} {step : Step}, w.turn = (step, w₁) → (∀ eof, step ≠ .stop eof) →
      Prod.Lex (· < ·) (· < ·) w₁.measure w.measure := by
    intro w₁ step taken going
    have less := w.turn_lt (by rw [taken]; exact going)
    rwa [taken] at less
  unfold pass at passed
  split at passed
  · cases passed
  · rename_i taken
    cases passed
    exact turned taken (by simp)
  · rename_i taken
    have less := turned taken (by simp)
    split at passed <;> cases passed <;> exact less

variable (lib chain) in
/-- What holds of some work when it holds after the next turn holds of all work. -/
theorem pass_induction {motive : Work → Prop}
    (step : ∀ w, (∀ ts w', pass lib chain w = (ts, none, w') → motive w') → motive w) (w : Work) :
    motive w :=
  (InvImage.wf measure (Prod.lex Nat.lt_wfRel Nat.lt_wfRel).wf).induction w fun w ih =>
    step w fun _ _ passed => ih _ (pass_lt passed)

theorem run_of_pass {w w' : Work} {ts : Array Token} (passed : pass lib chain w = (ts, none, w'))
    (whole : Bool) (out : Array Token) : run lib chain whole w out =
      if w'.opened.isEmpty && !whole then (out ++ ts, none, w')
      else run lib chain whole w' (out ++ ts) := by
  rw [run_eq_pass, passed]

theorem run_of_last {w w' : Work} {ts : Array Token} {eof : Token}
    (passed : pass lib chain w = (ts, some eof, w')) (whole : Bool) (out : Array Token) :
    run lib chain whole w out = (out ++ ts, some eof, w') := by
  rw [run_eq_pass, passed]

/-- A run puts its text behind what is there already. -/
theorem run_onto (whole : Bool) (w : Work) (before out : Array Token) :
    run lib chain whole w (before ++ out) =
      (before ++ (run lib chain whole w out).1, (run lib chain whole w out).2) := by
  induction w using pass_induction lib chain generalizing out with
  | step w ih =>
    rcases passed : pass lib chain w with ⟨ts, _ | eof, w'⟩
    · rw [run_of_pass passed, run_of_pass passed, Array.append_assoc, ih ts w' passed]
      split <;> rfl
    · rw [run_of_last passed, run_of_last passed, Array.append_assoc]

/-- A run over the whole file goes on where a run over one statement stops. -/
theorem run_whole_of_none {whole : Bool} {w w' : Work} {out out' : Array Token}
    (ran : run lib chain whole w out = (out', none, w')) :
    run lib chain true w out = run lib chain true w' out' := by
  induction w using pass_induction lib chain generalizing out with
  | step w ih =>
    rcases passed : pass lib chain w with ⟨ts, _ | eof, next⟩
    · rw [run_of_pass passed] at ran ⊢
      rw [if_neg (by simp)]
      split at ran
      · cases ran
        rfl
      · exact ih ts next passed ran
    · rw [run_of_last passed] at ran
      cases ran

/-- A run over the whole file stops where a run over a statement comes to the end. -/
theorem run_whole_of_some {whole : Bool} {w w' : Work} {out out' : Array Token} {eof : Token}
    (ran : run lib chain whole w out = (out', some eof, w')) :
    run lib chain true w out = (out', some eof, w') := by
  induction w using pass_induction lib chain generalizing out with
  | step w ih =>
    rcases passed : pass lib chain w with ⟨ts, _ | last, next⟩
    · rw [run_of_pass passed] at ran ⊢
      rw [if_neg (by simp)]
      split at ran
      · cases ran
      · exact ih ts next passed ran
    · rw [run_of_last passed] at ran ⊢
      exact ran

end Pass

/-- A run that stops behind a statement has no conditional open. -/
theorem opened_of_run {lib : Library} {chain : List String} {w w' : Work} {out out' : Array Token}
    (ran : run lib chain false w out = (out', none, w')) : w'.opened = [] := by
  induction w using pass_induction lib chain generalizing out with
  | step w ih =>
    rcases passed : pass lib chain w with ⟨ts, _ | eof, next⟩
    · rw [run_of_pass passed] at ran
      split at ran
      · rename_i closed
        cases ran
        simpa using closed
      · exact ih ts next passed ran
    · rw [run_of_last passed] at ran
      cases ran

end Work

/-! ## Pulling a whole text -/

namespace Stream

variable {lib : Library} {p : Preprocessor} {s : Stream}

theorem collectOnto_of_empty (empty : (s.fill lib p).1.pending = []) (out : Array Token) :
    s.collectOnto lib p out = (out.push (s.fill lib p).1.last, (s.fill lib p).2) := by
  rw [collectOnto]
  exact dif_pos empty

theorem collectOnto_of_filled (filled : (s.fill lib p).1.pending ≠ []) (out : Array Token) :
    s.collectOnto lib p out = collectOnto lib (s.fill lib p).2
      { (s.fill lib p).1 with pending := [] } (out ++ (s.fill lib p).1.pending) := by
  rw [collectOnto]
  exact dif_neg filled

/-- After a statement that does not end the file, what it gave is pulled first. -/
theorem collectOnto_of_none {out found : Array Token} {w : Work} (empty : s.pending = [])
    (going : s.done = false) (ran : (s.work p).run lib [s.path] false #[] = (found, none, w)) :
    s.collectOnto lib p out =
      collectOnto lib (p.after w) { s with reader := w.reader, pending := [] } (out ++ found) := by
  have filled := fill_of_none empty going ran
  by_cases nothing : found.toList = []
  · rw [nothing] at filled
    rw [Array.toList_eq_nil_iff.1 nothing, Array.append_empty]
    conv_lhs => rw [collectOnto]
    conv_rhs => rw [collectOnto]
    simp only [filled]
  · have ready := fill_of_ready (s := { s with reader := w.reader, pending := found.toList })
      (Or.inl nothing) lib (p.after w)
    rw [ready] at filled
    rw [collectOnto_of_filled (by rw [filled]; exact nothing), filled]
    simp only [append_toList]

/-- After the statement that ends the file, what it gave is pulled, and then the end token. -/
theorem collectOnto_of_some {out found : Array Token} {w : Work} {eof : Token}
    (empty : s.pending = []) (going : s.done = false)
    (ran : (s.work p).run lib [s.path] false #[] = (found, some eof, w)) :
    s.collectOnto lib p out = ((out ++ found).push eof, p.after w) := by
  have filled := fill_of_some empty going ran
  by_cases nothing : found.toList = []
  · rw [collectOnto_of_empty (by rw [filled]; exact nothing), filled,
      Array.toList_eq_nil_iff.1 nothing, Array.append_empty]
  · have ended := fill_of_ready
      (s := { s with reader := w.reader, pending := [], last := eof, done := true }) (Or.inr rfl)
      lib (p.after w)
    rw [collectOnto_of_filled (by rw [filled]; exact nothing), filled,
      collectOnto_of_empty (by rw [ended]), ended]
    simp only [append_toList]

/-- Pulling a text statement by statement gives what one run to the end of its file gives. -/
theorem collectOnto_eq_run (empty : s.pending = []) (going : s.done = false) (out : Array Token) :
    ∃ ts eof w, (s.work p).run lib [s.path] true #[] = (ts, some eof, w) ∧
      s.collectOnto lib p out = ((out ++ ts).push eof, p.after w) := by
  induction size : s.reader.size using Nat.strong_induction_on generalizing p s out with
  | _ n ih =>
    rcases ran : (s.work p).run lib [s.path] false #[] with ⟨found, _ | eof, w⟩
    · have smaller : w.reader.size < s.reader.size := Work.run_size_lt (w := s.work p) rfl ran
      obtain ⟨ts, eof, last, whole, collected⟩ := ih w.reader.size (by omega)
        (p := p.after w) (s := { s with reader := w.reader, pending := [] }) rfl going
        (out ++ found) rfl
      -- Between two statements the work is what the stream and the preprocessor keep of it.
      have kept : work { s with reader := w.reader, pending := [] } (p.after w) = w := by
        obtain ⟨macros, reader, opened, remarks⟩ := w
        cases Work.opened_of_run ran
        rfl
      rw [kept] at whole
      have rest : Work.run lib [s.path] true w (found ++ #[]) = (found ++ ts, some eof, last) := by
        rw [Work.run_onto, whole]
      rw [Array.append_empty] at rest
      refine ⟨found ++ ts, eof, last, (Work.run_whole_of_none ran).trans rest, ?_⟩
      rw [collectOnto_of_none empty going ran, collected, Array.append_assoc]
      rfl
    · exact ⟨found, eof, w, Work.run_whole_of_some ran, collectOnto_of_some empty going ran⟩

end Stream

namespace Preprocessor

/-- The work on a file at its start. -/
def start (p : Preprocessor) (path : String) (data : ByteArray) : Work :=
  { macros := p.macros, remarks := p.remarks,
    reader := .ofText path (Text.ofBytes data) p.diagnostics }

/-- Expanding a file gives the text of one run over it, and its end token. -/
theorem expand_eq_run (p : Preprocessor) {lib : Library} {path : String} {data : ByteArray}
    (read : lib.read path = .ok data) : ∃ ts eof w,
      Work.run lib [path] true (p.start path data) #[] = (ts, some eof, w) ∧
        p.expand lib path = (ts.toList ++ [eof], p.after w) := by
  let s : Stream :=
    { path, reader := .ofText path (Text.ofBytes data), last := ⟨.eof, "", path, 1, 1⟩ }
  have started : p.stream lib path = (s, p) := by simp only [stream, read, s]
  obtain ⟨ts, eof, w, ran, collected⟩ : ∃ ts eof w, (s.work p).run lib [s.path] true #[] =
      (ts, some eof, w) ∧ s.collectOnto lib p #[] = ((#[] ++ ts).push eof, p.after w) :=
    Stream.collectOnto_eq_run rfl rfl #[]
  refine ⟨ts, eof, w, ran, ?_⟩
  rw [expand, started]
  simp only [Stream.collect, collected, Array.empty_append, Array.toList_push]

/-- While the file at `path` is expanded on its own, it or a file that it brings in asks for the
file at `other`. -/
def Includes (p : Preprocessor) (lib : Library) (path other : String) : Prop :=
  ∃ data, lib.read path = .ok data ∧
    (Activity.file [path] true (p.start path data)).Asks lib other

end Preprocessor

/-! ## Including a file -/

/-- Blanks in front of another token are passed over. -/
theorem Reader.skipWhitespace_of_leads {r r' : Reader} {blanks ts : List Token} {t : Token}
    (blank : ∀ b ∈ blanks, b.kind = .whitespace) (solid : t.kind ≠ .whitespace)
    (leads : r.Leads (blanks ++ t :: ts) r') : r.skipWhitespace.Leads (t :: ts) r' := by
  let judge : Unit → Token → Verdict Unit := fun _ t =>
    if t.kind = .whitespace then .more () else .stay ()
  have passes : track judge () blanks = ((), none) := by
    clear leads
    induction blanks with
    | nil => rfl
    | cons b blanks ih =>
      obtain ⟨first, others⟩ := List.forall_mem_cons.1 blank
      rw [track, show judge () b = .more () from if_pos first]
      exact ih others
  have stops : track judge () (blanks ++ t :: ts) = ((), some (t :: ts)) := by
    rw [track_append_of_pass passes, track, show judge () t = .stay () from if_neg solid]
  obtain ⟨s, skipped, rest⟩ := loop_of_stop stops leads
  rw [skipWhitespace, skipped]
  exact rest

theorem Token.kind_of_quotedPath? {t : Token} {quoted : String}
    (named : t.quotedPath? = some quoted) : t.kind = .string := by
  unfold quotedPath? at named
  split at named
  · assumption
  · cases named

theorem Library.fetch_eq_ok {lib : Library} {chain : List String} {quoted : String}
    {data : ByteArray} (closed : (lib.resolve (chain.headD "") quoted).path ∉ chain)
    (read : lib.read (lib.resolve (chain.headD "") quoted).path = .ok data) :
    lib.fetch chain quoted = (lib.resolve (chain.headD "") quoted, .ok data) := by
  simp only [fetch, if_neg closed, read]

namespace Work

/-- A turn at `#include` with a quoted path asks for the file, and is behind the path then. -/
theorem turn_of_leads_include {w : Work} {directive place : Token} {blanks : List Token}
    {quoted : String} {rest : Reader}
    (ahead : w.reader.Leads (directive :: (blanks ++ [place])) rest)
    (word : directive.isDirective "#include") (blank : ∀ t ∈ blanks, t.kind = .whitespace)
    (named : place.quotedPath? = some quoted) :
    w.turn = (.enter place quoted, w.withReader rest) := by
  obtain ⟨front, -, behind⟩ := Reader.leads_cons.1 ahead
  have solid : place.kind ≠ .whitespace := by simp [Token.kind_of_quotedPath? named]
  obtain ⟨seen, -, last⟩ := Reader.leads_cons.1 (Reader.skipWhitespace_of_leads blank solid behind)
  rw [turn_of_include word w front]
  simp only [turnInclude, withReader, Reader.read_peek, seen, named, Reader.leads_nil.1 last]

/-- **Including a file is expanding it.**  At `#include` with a quoted path that means a readable
file, let neither this file nor any that is asked for in its own expansion be open already.  Then
every run puts out exactly the text that the file has when it is expanded on its own with the macros
so far, without its end token, and goes on with the same files open, right behind the quoted path,
with the conditionals that were open before, the macros that the file leaves, and the diagnostics of
the file behind those found before. -/
theorem run_include (lib : Library) (chain : List String) (w : Work) {directive place : Token}
    {blanks : List Token} {quoted : String} {rest : Reader} {data : ByteArray}
    (ahead : w.reader.Leads (directive :: (blanks ++ [place])) rest)
    (word : directive.isDirective "#include") (blank : ∀ t ∈ blanks, t.kind = .whitespace)
    (named : place.quotedPath? = some quoted) :
    let found := lib.resolve (chain.headD "") quoted
    let own : Preprocessor :=
      { macros := w.macros
        remarks := w.remarks ++ found.remark.toList ++
          [includingRemark found.path (chain.headD "")] }
    lib.read found.path = .ok data → found.path ∉ chain →
    (∀ other, own.Includes lib found.path other → other ∉ chain) →
    ∃ ts eof after, own.expand lib found.path = (ts ++ [eof], after) ∧ NoEnd ts ∧ eof.kind = .eof ∧
      w.Yields lib chain ts.toArray
        { macros := after.macros
          reader := { rest with diagnostics := rest.diagnostics ++ after.diagnostics }
          opened := w.opened
          remarks := after.remarks } := by
  intro found own read closed apart
  obtain ⟨ts, eof, last, ran, expanded⟩ := own.expand_eq_run read
  obtain ⟨inside, ended⟩ := noEnd_run lib [found.path] true (own.start found.path data) #[] noEnd_nil
  rw [ran] at inside ended
  refine ⟨ts.toList, eof, own.after last, expanded, inside, ended eof rfl, fun whole out => ?_⟩
  -- Inside of the file around it, the file is expanded after other diagnostics and with more files
  -- open.
  have visiting : ((w.withReader rest).noting chain found).visit found.path data =
      (own.start found.path data).earlier rest.diagnostics := by
    simp [visit, noting, remarkOn, remark, withReader, earlier, Reader.earlier, Preprocessor.start,
      Reader.ofText, own]
  have brought : bring lib chain (w.withReader rest) found data =
      (ts, some eof, last.earlier rest.diagnostics) := by
    rw [bring, visiting, run_earlier]
    have alone := run_append lib chain [found.path] true (own.start found.path data) #[]
      (List.cons_ne_nil _ _) fun other asked => apart other ⟨data, read, asked⟩
    rw [List.singleton_append] at alone
    rw [alone, ran]
  rw [run_of_ok (turn_of_leads_include ahead word blank named) (Library.fetch_eq_ok closed read),
    brought]
  rfl

end Work

/-! ## An example -/

/-- A disk with a file that ends a branch it has not begun. -/
def strayDisk : Disk :=
  { files := [("door.inc", "#else\n".toUTF8)] }

namespace Work

/-- Work inside of an `#if`, at an include of that file. -/
def strayWork : Work where
  macros := []
  reader := .ofTokens
    [Conditional.piece .directive "#include", Conditional.piece .string "\"door.inc\""]
  opened := [Conditional.piece .directive "#if"]

/-- The `#else` of the file is reported there, and the `#if` around the include stays open. -/
theorem run_include_stray :
    strayWork.Yields strayDisk.library ["main.scd"] #[⟨.newline, "\n", "door.inc", 1, 6⟩]
      { macros := []
        reader := ⟨.replay [] ⟨"main.scd", 1, 11⟩, [], [⟨"door.inc", 1, 1, .strayElse⟩]⟩
        opened := [Conditional.piece .directive "#if"]
        remarks := ["including door.inc from main.scd"] } := by
  let own : Preprocessor := { remarks := ["including door.inc from main.scd"] }
  let lineEnd : Token := ⟨.newline, "\n", "door.inc", 1, 6⟩
  let eof : Token := ⟨.eof, "", "door.inc", 2, 1⟩
  let rest (finished : Bool) : Source :=
    .scanner { path := "door.inc", rest := [], position := { line := 2 }, finished }
  let behind (source : Source) (ahead : List Token) : Work :=
    ⟨[], ⟨source, ahead, [⟨"door.inc", 1, 1, .strayElse⟩]⟩, [], own.remarks⟩
  have first : (own.start "door.inc" "#else\n".toUTF8).turn =
      (.emit [], behind (rest false) [lineEnd]) := by
    rw [Preprocessor.start, Text.ofBytes_toUTF8]
    cbv
  have second : (behind (rest false) [lineEnd]).turn =
      (.emit [lineEnd], behind (rest false) []) := by cbv
  have third : (behind (rest false) []).turn = (.stop eof, behind (rest true) [eof]) := by cbv
  have read : strayDisk.library.read "door.inc" = .ok "#else\n".toUTF8 := rfl
  have resolved : strayDisk.library.resolve "main.scd" "door.inc" = ⟨"door.inc", none⟩ := by
    decide +kernel
  -- The file includes nothing.
  have alone : ∀ other, ¬own.Includes strayDisk.library "door.inc" other := by
    rintro other ⟨data, read', asked⟩
    cases read.symm.trans read'
    exact Activity.not_asks_of_stop third
      (Activity.asks_of_emit second (Activity.asks_of_emit first asked))
  have expanded : own.expand strayDisk.library "door.inc" =
      ([lineEnd, eof], own.after (behind (rest true) [eof])) := by
    obtain ⟨ts, last, w, ran, expanded⟩ := own.expand_eq_run read
    rw [run_of_emit first, if_neg (by simp), run_of_emit second, if_neg (by simp),
      run_of_stop third] at ran
    cases ran
    exact expanded
  have ahead : strayWork.reader.Leads (Conditional.piece .directive "#include" ::
      ([] ++ [Conditional.piece .string "\"door.inc\""])) ⟨.replay [] ⟨"main.scd", 1, 11⟩, [], []⟩ :=
    Reader.leads_ofTokens (by decide) []
  have named : (Conditional.piece .string "\"door.inc\"").quotedPath? = some "door.inc" := by cbv
  obtain ⟨ts, last, after, expanded', -, -, yields⟩ := run_include strayDisk.library ["main.scd"]
    strayWork ahead (by decide) (List.forall_mem_nil _) named
    (by rw [List.headD_cons, resolved]; exact read)
    (by rw [List.headD_cons, resolved]; decide)
    (by rw [List.headD_cons, resolved]; exact fun other asked => absurd asked (alone other))
  rw [List.headD_cons, resolved] at expanded'
  obtain ⟨same, rfl⟩ := Prod.mk.inj (expanded'.symm.trans expanded)
  have same : ts ++ [last] = [lineEnd] ++ [eof] := same
  obtain ⟨rfl, -⟩ := List.append_inj' same rfl
  exact yields

end Work

end RoomScript
