import RoomScript.Proofs.Macro.Steps
import RoomScript.Proofs.Preprocess.Lasting

/-!
# Calls expand within a line

A definition is read without line ends and comments, and those within an argument list are read as
blanks.  So a call expands to tokens that all stand on one line, however many lines it is written
on.

* `Macro.Tidy` says what a body looks like that was read from a definition, and
  `Reader.tidy_of_readDefinition` that it does;
* `Macro.Table.Learns` relates the table of one time to that of a later one, and
  `Macro.Table.Learns.tidy` says that definitions leave a table tidy;
* `Reader.call_keepsLine` says that what takes the place of a call keeps to a line, whatever is in
  front of the reader;
* `Reader.Captures` follows a captured list through the operations of a reader, so
  `Macro.expandOnto_keepsLine` goes through all that is nested in a call;
* `Reader.expandCall_keepsLine` is the result.
-/

namespace RoomScript

/-- A token that may stand within a line. -/
def Token.KeepsLine (t : Token) : Prop :=
  t.kind ≠ .eof ∧ t.kind ≠ .newline ∧ t.kind ≠ .comment

theorem Token.keepsLine_of_kind {t : Token} {kind : Token.Kind} (h : t.kind = kind)
    (inner : kind ≠ .eof ∧ kind ≠ .newline ∧ kind ≠ .comment) : t.KeepsLine := by
  rwa [KeepsLine, h]

/-! ## Definitions -/

/-- A macro whose body stands on one line, without a backslash and without blanks at its ends. -/
structure Macro.Tidy (m : Macro) : Prop where
  inner : ∀ t ∈ m.body, t.KeepsLine ∧ t.kind ≠ .backslash
  first : ∀ t ∈ m.body.head?, t.kind ≠ .whitespace
  last : ∀ t ∈ m.body.getLast?, t.kind ≠ .whitespace

/-- All macros of the table are tidy. -/
def Macro.Table.Tidy (table : Macro.Table) : Prop :=
  ∀ m ∈ table, m.Tidy

namespace Token

variable {ts : List Token} {t : Token}

/-- Trimmed tokens do not begin with a blank. -/
theorem head?_trimBlanks (mem : t ∈ (trimBlanks ts).head?) : t.kind ≠ .whitespace := by
  have part : trimBlanks ts <+: ts.dropWhile (·.kind == .whitespace) :=
    List.reverse_suffix.1 (by
      rw [trimBlanks, List.reverse_reverse]
      exact List.dropWhile_suffix _)
  cases trimmed : trimBlanks ts with
  | nil =>
    rw [trimmed] at mem
    cases mem
  | cons u us =>
    rw [trimmed] at mem part
    obtain ⟨behind, whole⟩ := part
    have first := List.head?_dropWhile_not (fun t : Token => t.kind == .whitespace) ts
    rw [← whole] at first
    obtain rfl : u = t := Option.some.inj mem
    simpa using first

/-- Trimmed tokens do not end with a blank. -/
theorem getLast?_trimBlanks (mem : t ∈ (trimBlanks ts).getLast?) : t.kind ≠ .whitespace := by
  rw [trimBlanks, List.getLast?_reverse] at mem
  have first := List.head?_dropWhile_not (fun t : Token => t.kind == .whitespace)
    (ts.dropWhile (·.kind == .whitespace)).reverse
  rw [mem] at first
  simpa using first

end Token

namespace Reader

/-- A loop keeps a property of its state that every verdict keeps. -/
theorem loop_state {σ : Type} {judge : σ → Token → Verdict σ} {Q : σ → Prop}
    (step : ∀ a t, Q a → (judge a t).All Q) {a : σ} (ha : Q a) (r : Reader) :
    Q (r.loop judge a).1 := by
  have lasting : Token.Lasting fun _ => True :=
    ⟨fun _ => trivial, fun _ => trivial, fun _ _ => trivial⟩
  have all : r.All fun _ => True := by
    obtain ⟨source, lookahead, ds⟩ := r
    refine ⟨?_, fun _ _ => trivial⟩
    cases source with
    | scanner s => exact trivial
    | replay ts last => exact fun _ _ => trivial
  exact (all.loop lasting (fun a t h _ => step a t h) ha).1

/-- A body has no line end, no comment and no backslash. -/
theorem keepsLine_readBody (r : Reader) :
    ∀ t ∈ r.readBody.1, t.KeepsLine ∧ t.kind ≠ .backslash := by
  have step : ∀ (b : Body) (t : Token), (∀ u ∈ b.tokens.toList, u.KeepsLine ∧ u.kind ≠ .backslash) →
      (b.judge t).All fun b : Body => ∀ u ∈ b.tokens.toList, u.KeepsLine ∧ u.kind ≠ .backslash := by
    intro b t inner
    have longer : t.KeepsLine ∧ t.kind ≠ .backslash →
        ∀ u ∈ (b.tokens.push t).toList, u.KeepsLine ∧ u.kind ≠ .backslash := by
      intro ht
      rw [Array.toList_push]
      exact List.forall_mem_append.2 ⟨inner, List.forall_mem_singleton.2 ht⟩
    unfold Body.judge
    split
    · exact inner
    · exact inner
    · exact inner
    · split <;> exact inner
    · rename_i blank
      exact longer ⟨Token.keepsLine_of_kind blank (by decide), by simp [blank]⟩
    · rename_i eof backslash comment newline _
      exact longer ⟨⟨eof, newline, comment⟩, backslash⟩
  exact Token.all_trimBlanks (loop_state step (a := {}) (by simp) r.skipWhitespace)

/-- The body of a definition is read by `readBody`. -/
theorem exists_readBody {r : Reader} {m : Macro} (read : r.readDefinition.1 = some m) :
    ∃ s : Reader, m.body = s.readBody.1 := by
  unfold readDefinition at read
  simp only at read
  split at read
  · cases read
  · split at read
    · split at read
      · cases read
      · cases read
        exact ⟨_, rfl⟩
    · cases read
      exact ⟨_, rfl⟩

/-- The macros of definitions are tidy. -/
theorem tidy_of_readDefinition {r : Reader} {m : Macro} (read : r.readDefinition.1 = some m) :
    m.Tidy := by
  obtain ⟨s, body⟩ := exists_readBody read
  constructor
  · rw [body]
    exact keepsLine_readBody s
  · rw [body]
    exact fun t mem => Token.head?_trimBlanks mem
  · rw [body]
    exact fun t mem => Token.getLast?_trimBlanks mem

end Reader

/-! ## Learning macros -/

/-- The later table has macros in front of the other one that were read from definitions. -/
inductive Macro.Table.Learns (table : Macro.Table) : Macro.Table → Prop
  | nothing : Learns table table
  | define {later : Macro.Table} {r : Reader} {m : Macro} (before : Learns table later)
    (read : r.readDefinition.1 = some m) : Learns table (later.define m)

namespace Macro.Table.Learns

variable {table later last : Macro.Table}

/-- Nothing that is known is lost. -/
theorem suffix (h : table.Learns later) : table <:+ later := by
  induction h with
  | nothing => exact List.suffix_rfl
  | define _ _ ih => exact ih.trans (List.suffix_cons _ _)

theorem trans (h : table.Learns later) (h' : later.Learns last) : table.Learns last := by
  induction h' with
  | nothing => exact h
  | define _ read ih => exact ih.define read

/-- Definitions leave a table tidy. -/
theorem tidy (h : table.Learns later) (tidy : table.Tidy) : later.Tidy := by
  induction h with
  | nothing => exact tidy
  | define _ read ih => exact List.forall_mem_cons.2 ⟨Reader.tidy_of_readDefinition read, ih⟩

end Macro.Table.Learns

namespace Reader

/-! ## Calls -/

/-- Whatever is read into an argument list keeps to its line there. -/
theorem Arguments.All.judge_keepsLine {a : Arguments} (all : a.All Token.KeepsLine) (t : Token) :
    (a.judge t).All (Arguments.All Token.KeepsLine) := by
  have blank := all.push (t := { t with kind := .whitespace, lexeme := " " })
    ⟨nofun, nofun, nofun⟩
  unfold Arguments.judge
  split
  · exact all
  · rename_i opens
    have kept := all.push (Token.keepsLine_of_kind opens (by decide))
    exact ⟨kept.finished, kept.current⟩
  · rename_i closes
    have kept := all.push (Token.keepsLine_of_kind closes (by decide))
    split
    · exact all.close
    · exact ⟨kept.finished, kept.current⟩
  · rename_i comma
    split
    · exact all.finish
    · exact all.push (Token.keepsLine_of_kind comma (by decide))
  · exact blank
  · exact blank
  · rename_i eof _ _ _ newline comment
    exact all.push ⟨eof, newline, comment⟩

section Calls

variable {r : Reader} {table : Macro.Table}

theorem readArguments_keepsLine {args : List (List Token)} (read : r.readArguments.1 = some args) :
    ∀ arg ∈ args, ∀ t ∈ arg, t.KeepsLine := by
  have kept : Arguments.All Token.KeepsLine (r.loop Arguments.judge {}).1 :=
    loop_state (fun a t all => all.judge_keepsLine t) ⟨by simp, by simp⟩ r
  unfold readArguments at read
  simp only at read
  split at read
  · cases read
    exact kept.finished
  · cases read

theorem callBody_keepsLine {m : Macro} (tidy : m.Tidy) (name : Token) (r : Reader) :
    (r.callBody m name).1.All Token.KeepsLine := by
  have body : ∀ t ∈ m.body, t.KeepsLine := fun t mem => (tidy.inner t mem).1
  have nothing : Replacement.All Token.KeepsLine (.tokens []) := List.forall_mem_nil _
  unfold callBody
  simp only
  split
  · split
    · exact body
    · exact nothing
  · split
    · exact nothing
    · rename_i args s read
      split
      · exact nothing
      · exact Macro.all_substitute body (readArguments_keepsLine (congrArg Prod.fst read))

/-- What takes the place of a call keeps to its line. -/
theorem call_keepsLine (tidy : table.Tidy) (active : List String) (r : Reader) :
    (r.call table active).1.All Token.KeepsLine := by
  rw [call_eq]
  cases named : table.named? r.peek.1 with
  | none => exact trivial
  | some m =>
    simp only
    split
    · exact List.forall_mem_nil _
    · exact callBody_keepsLine (tidy m (Macro.Table.mem_of_find?
        (Macro.Table.named?_eq_some_iff.1 named).2)) _ _

theorem replace_keepsLine (tidy : table.Tidy) (condition : Bool) (active : List String)
    (r : Reader) : (r.replace table condition active).1.All Token.KeepsLine := by
  unfold replace
  simp only
  split
  · exact fun t mem => Token.keepsLine_of_kind (kind_of_mem_readDefined table _ t mem) (by decide)
  · exact call_keepsLine tidy active _

end Calls

/-! ## Captured lists -/

theorem Replays.peek {r : Reader} {ts : List Token} (h : r.Replays ts) : r.peek.2.Replays ts := by
  have pulled := h.pull.1
  obtain ⟨source, lookahead, ds⟩ := r
  cases lookahead with
  | cons t rest => exact h
  | nil => exact pulled

/-- The reader is over a captured list, and all that is left in front of its end has the
property. -/
def Captures (P : Token → Prop) (r : Reader) : Prop :=
  ∃ ts, r.Replays ts ∧ ∀ t ∈ ts, P t

variable {P : Token → Prop}

theorem captures_ofTokens {ts : List Token} (all : ∀ t ∈ ts, P t) (ds : List Diagnostic) :
    (ofTokens ts ds).Captures P :=
  ⟨_, replays_ofTokens ts ds, fun t mem => all t (Token.mem_of_mem_untilEnd mem)⟩

namespace Captures

variable {r : Reader}

theorem with_diagnostics (h : r.Captures P) (ds : List Diagnostic) :
    Captures P { r with diagnostics := ds } :=
  h

theorem report (h : r.Captures P) (d : Diagnostic) : (r.report d).Captures P :=
  h

/-- A token in front of the end has the property. -/
theorem front (h : r.Captures P) (going : r.peek.1.kind ≠ .eof) : P r.peek.1 := by
  obtain ⟨ts, left, all⟩ := h
  cases ts with
  | nil => exact absurd left.atEnd.1 going
  | cons t ts => exact all _ (left.front.1 ▸ List.mem_cons_self)

theorem peek (h : r.Captures P) : r.peek.2.Captures P := by
  obtain ⟨ts, left, all⟩ := h
  exact ⟨ts, left.peek, all⟩

theorem read (h : r.Captures P) : r.read.2.Captures P := by
  obtain ⟨ts, left, all⟩ := h
  cases ts with
  | nil =>
    rw [read_of_end left.atEnd.1]
    exact ⟨[], left.peek, all⟩
  | cons t ts => exact ⟨ts, left.front.2.2.2.1, (List.forall_mem_cons.1 all).2⟩

theorem skip (h : r.Captures P) (count : Nat) : (r.skip count).Captures P := by
  induction count generalizing r with
  | zero => exact h
  | succ count ih => exact ih h.read

theorem loop {σ : Type} (h : r.Captures P) (judge : σ → Token → Verdict σ) (a : σ) :
    (r.loop judge a).2.Captures P := by
  fun_induction Reader.loop judge a r with
  | case1 => exact h.peek
  | case2 => exact h.peek.read
  | case3 => exact h.peek
  | case4 a r seen b verdict going ih => exact ih h.peek.read

theorem readNoWhitespace (h : r.Captures P) : r.readNoWhitespace.2.Captures P :=
  (h.loop _ _).read

theorem peekNoWhitespace (h : r.Captures P) : r.peekNoWhitespace.2.Captures P := by
  obtain ⟨ts, left, all⟩ := h
  exact ⟨ts, left.peekNoWhitespace.1, all⟩

theorem readArguments (h : r.Captures P) : r.readArguments.2.Captures P :=
  h.loop _ _

theorem callBody (h : r.Captures P) (m : Macro) (name : Token) :
    (r.callBody m name).2.Captures P := by
  have peeked := h.peekNoWhitespace
  have after := (peeked.skip (r.peekNoWhitespace.1.2 + 1)).readArguments
  unfold Reader.callBody
  simp only
  split
  · split
    · exact peeked
    · exact peeked.report _
  · split <;> rename_i read <;> rw [read] at after
    · exact after.report _
    · split
      · exact after.report _
      · exact after

theorem refuseCall (h : r.Captures P) (m : Macro) (name : Token) :
    (r.refuseCall m name).Captures P := by
  have peeked := (h.report (name.diagnostic (.recursiveMacro m.name))).peekNoWhitespace
  unfold Reader.refuseCall
  simp only
  split
  · exact (peeked.skip _).readArguments
  · exact peeked

theorem call (h : r.Captures P) (table : Macro.Table) (active : List String) :
    (r.call table active).2.Captures P := by
  rw [call_eq]
  split
  · exact h.peek
  · split
    · exact h.read.refuseCall _ _
    · exact h.read.callBody _ _

theorem readDefined (h : r.Captures P) (table : Macro.Table) :
    (r.readDefined table).2.Captures P := by
  have first := h.readNoWhitespace
  have second := first.readNoWhitespace
  unfold Reader.readDefined
  simp only
  split
  · exact first.report _
  · split
    · exact second.report _
    · split
      · exact second.readNoWhitespace.report _
      · exact second.readNoWhitespace

theorem replace (h : r.Captures P) (table : Macro.Table) (condition : Bool)
    (active : List String) : (r.replace table condition active).2.Captures P := by
  unfold Reader.replace
  simp only
  split
  · exact h.peek.read.readDefined table
  · exact h.peek.call table active

end Captures

end Reader

/-- Expanding a list within a line gives a list within a line. -/
theorem Macro.expandOnto_keepsLine {table : Table} (tidy : table.Tidy) (condition : Bool)
    (active : List String) {r : Reader} (captured : r.Captures Token.KeepsLine)
    {out : Array Token} (before : ∀ t ∈ out, t.KeepsLine) :
    ∀ t ∈ (expandOnto table condition active r out).1, t.KeepsLine := by
  fun_induction expandOnto table condition active r out with
  | case1 => exact before
  | case2 active r out seen going _ _ ih =>
    refine ih captured.peek.read ?_
    simpa [or_imp, forall_and] using ⟨before, captured.front going⟩
  | case3 active r out seen going ts after found ih =>
    have taken := Reader.replace_keepsLine tidy condition active r
    have left := captured.replace table condition active
    rw [found] at taken left
    exact ih left (all_append before taken)
  | case4 active r out seen going m ts after found inner ihInner ih =>
    have taken := Reader.replace_keepsLine tidy condition active r
    have left := captured.replace table condition active
    rw [found] at taken left
    refine ih (left.with_diagnostics _) ?_
    have nested := ihInner (Reader.captures_ofTokens taken _) all_empty
    simpa [or_imp, forall_and] using ⟨before, nested⟩

/-- A call expands to a list within a line, whatever is in front of the reader. -/
theorem Reader.expandCall_keepsLine {table : Macro.Table} (tidy : table.Tidy) {condition : Bool}
    {active : List String} {r after : Reader} {ts : List Token}
    (expanded : r.expandCall table condition active = (some ts, after)) :
    ∀ t ∈ ts, t.KeepsLine := by
  have taken := call_keepsLine tidy active r
  unfold expandCall at expanded
  split at expanded <;> rename_i found <;> rw [found] at taken <;> cases expanded
  · exact taken
  · rename_i m us s
    intro t mem
    exact Macro.expandOnto_keepsLine tidy condition (m.name :: active) (captures_ofTokens taken _)
      all_empty t (Array.mem_toList_iff.1 mem)

end RoomScript
