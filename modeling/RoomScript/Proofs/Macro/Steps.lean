import RoomScript.Preprocess.Turn
import RoomScript.Proofs.Token.Advance

/-!
# Expanding a captured list step by step

A captured list is expanded token by token: a token that names no macro stays, and a call gives way
to what it expands to.

* `Macro.Table.named?` is the macro that a token names, and `Reader.expandCall` what a call of it
  expands to, in a file (`Work.turnToken_eq`) and in a captured list (`Macro.expandOnto_eq`);
* `Reader.Replays` says which tokens a captured list still has in front of its end;
* `Macro.expand_of_unnamed` says that a list which names no macro expands to itself.
-/

namespace RoomScript

/-- The tokens of a list in front of its end. -/
def Token.untilEnd (ts : List Token) : List Token :=
  ts.takeWhile (·.kind != .eof)

theorem Token.untilEnd_cons_of_end {t : Token} (h : t.kind = .eof) (ts : List Token) :
    untilEnd (t :: ts) = [] :=
  List.takeWhile_cons_of_neg (by simp [h])

theorem Token.untilEnd_cons {t : Token} (h : t.kind ≠ .eof) (ts : List Token) :
    untilEnd (t :: ts) = t :: untilEnd ts :=
  List.takeWhile_cons_of_pos (by simpa using h)

/-- An end token behind a list makes no difference. -/
theorem Token.untilEnd_append_end {last : Token} (ended : last.kind = .eof) (ts : List Token) :
    untilEnd (ts ++ [last]) = untilEnd ts := by
  induction ts with
  | nil => exact untilEnd_cons_of_end ended []
  | cons t ts ih =>
    by_cases h : t.kind = .eof
    · rw [List.cons_append, untilEnd_cons_of_end h, untilEnd_cons_of_end h]
    · rw [List.cons_append, untilEnd_cons h, untilEnd_cons h, ih]

theorem Token.mem_of_mem_untilEnd {t : Token} {ts : List Token} (mem : t ∈ untilEnd ts) : t ∈ ts :=
  (List.takeWhile_prefix _).subset mem

/-- The macro that a token names. -/
def Macro.Table.named? (table : Macro.Table) (t : Token) : Option Macro :=
  if t.kind = .symbol then table.find? t.lexeme else none

namespace Macro.Table

variable {table : Table} {t : Token} {m : Macro}

theorem named?_eq_some_iff :
    table.named? t = some m ↔ t.kind = .symbol ∧ table.find? t.lexeme = some m := by
  unfold named?
  split <;> simp_all

theorem named?_eq_none_iff :
    table.named? t = none ↔ ¬(t.kind = .symbol ∧ table.isDefined t.lexeme) := by
  unfold named? isDefined
  split <;> simp_all

theorem name_of_named? (named : table.named? t = some m) : m.name = t.lexeme :=
  name_of_find? (named?_eq_some_iff.1 named).2

end Macro.Table

/-! ## Calls -/

namespace Reader

variable {table : Macro.Table} {active : List String} {r : Reader} {t : Token} {ts : List Token}
  {m : Macro}

/-- What becomes of a token depends on the macro that it names. -/
theorem call_eq (table : Macro.Table) (active : List String) (r : Reader) :
    r.call table active = match table.named? r.peek.1 with
      | none => (.keep, r.peek.2)
      | some m =>
        if m.name ∈ active then (.tokens [], r.read.2.refuseCall m r.peek.1)
        else r.read.2.callBody m r.peek.1 := by
  simp only [call, read_peek]
  rfl

theorem call_peek (table : Macro.Table) (active : List String) (r : Reader) :
    r.peek.2.call table active = r.call table active := by
  rw [call_eq, call_eq, peek_peek, read_peek]

/-- A call that has been read is expanded further, or gives way to nothing. -/
theorem callBody_cases (m : Macro) (name : Token) (r : Reader) :
    (r.callBody m name).1 = .tokens [] ∨ ∃ ts, (r.callBody m name).1 = .rescan m ts := by
  unfold callBody
  simp only
  split
  · split
    · exact .inr ⟨_, rfl⟩
    · exact .inl rfl
  · split
    · exact .inl rfl
    · split
      · exact .inl rfl
      · exact .inr ⟨_, rfl⟩

/-- Only tokens that name no macro are kept. -/
theorem call_cases (table : Macro.Table) (active : List String) (r : Reader) :
    (table.named? r.peek.1 = none ∧ (r.call table active).1 = .keep) ∨
      (r.call table active).1 = .tokens [] ∨ ∃ m ts, (r.call table active).1 = .rescan m ts := by
  rw [call_eq]
  cases table.named? r.peek.1 with
  | none => exact .inl ⟨rfl, rfl⟩
  | some m =>
    refine .inr ?_
    simp only
    split
    · exact .inl rfl
    · exact (callBody_cases m _ _).imp_right fun again => ⟨m, again⟩

variable {after : Reader}

theorem unnamed_of_call_keep (found : r.call table active = (.keep, after)) :
    table.named? r.peek.1 = none := by
  have either := call_cases table active r
  rw [found] at either
  obtain ⟨plain, -⟩ | ⟨⟨⟩⟩ | ⟨m, ts, ⟨⟩⟩ := either
  exact plain

/-- Outside of conditions a call that is dropped leaves nothing. -/
theorem call_tokens (found : r.call table active = (.tokens ts, after)) : ts = [] := by
  have either := call_cases table active r
  rw [found] at either
  obtain ⟨-, ⟨⟩⟩ | ⟨⟨⟩⟩ | ⟨m, ts, ⟨⟩⟩ := either
  rfl

/-- The answer to `defined` is a number. -/
theorem kind_of_mem_readDefined (table : Macro.Table) (r : Reader) :
    ∀ t ∈ (r.readDefined table).1, t.kind = .number := by
  unfold readDefined
  simp only
  split
  · exact List.forall_mem_nil _
  · split
    · exact List.forall_mem_nil _
    · split
      · exact List.forall_mem_nil _
      · exact List.forall_mem_singleton.2 rfl

/-- Tokens that are not expanded further are numbers. -/
theorem kind_of_replace_tokens {condition : Bool}
    (found : r.replace table condition active = (.tokens ts, after)) :
    ∀ t ∈ ts, t.kind = .number := by
  unfold replace at found
  simp only at found
  split at found
  · cases found
    exact kind_of_mem_readDefined table _
  · rw [call_tokens found]
    exact List.forall_mem_nil _

/-- What a call expands to.  There is nothing if the token in front is no call. -/
def expandCall (table : Macro.Table) (condition : Bool) (active : List String) (r : Reader) :
    Option (List Token) × Reader :=
  match r.call table active with
  | (.keep, after) => (none, after)
  | (.tokens ts, after) => (some ts, after)
  | (.rescan m ts, after) =>
    let (us, diagnostics) := Macro.expand table condition (m.name :: active) ts after.diagnostics
    (some us, { after with diagnostics })

theorem expandCall_peek (table : Macro.Table) (condition : Bool) (active : List String)
    (r : Reader) :
    r.peek.2.expandCall table condition active = r.expandCall table condition active := by
  rw [expandCall, call_peek, ← expandCall]

/-- A token that names no macro is no call. -/
theorem expandCall_of_unnamed {condition : Bool} (plain : table.named? r.peek.1 = none) :
    r.expandCall table condition active = (none, r.peek.2) := by
  rw [expandCall, call_eq, plain]

end Reader

/-- A turn at a token that is no directive puts out what it expands to as a call, or else the token
itself. -/
theorem Work.turnToken_eq (w : Work) (t : Token) :
    w.turnToken t = match w.reader.expandCall w.macros false [] with
      | (none, after) => (.emit [t], w.withReader after.read.2)
      | (some ts, after) => (.emit ts, w.withReader after) := by
  unfold turnToken Reader.expandCall
  rcases w.reader.call w.macros [] with ⟨_ | ts | ⟨m, ts⟩, after⟩ <;> rfl

/-! ## Steps of an expansion -/

theorem append_toList (out us : Array Token) : out ++ us.toList = out ++ us := by
  rw [← Array.toList_inj, Array.toList_append, Array.toList_appendList]

theorem append_append (out : Array Token) (us vs : List Token) :
    out ++ us ++ vs = out ++ (us ++ vs) := by
  simp only [← Array.toList_inj, Array.toList_appendList, List.append_assoc]

namespace Macro

variable {table : Table} {condition : Bool} {active : List String} {r : Reader} {out : Array Token}

theorem expandOnto_of_end (atEnd : r.peek.1.kind = .eof) :
    expandOnto table condition active r out = (out, r.peek.2.diagnostics) := by
  rw [expandOnto]
  exact dif_pos atEnd

/-- In front of its end, and of a `defined` in a condition, a list gives what its first token
expands to as a call, or else the token itself. -/
theorem expandOnto_eq (going : r.peek.1.kind ≠ .eof)
    (other : condition → ¬(r.peek.1.kind = .symbol ∧ r.peek.1.lexeme = "defined")) :
    expandOnto table condition active r out =
      match r.expandCall table condition active with
      | (none, _) => expandOnto table condition active r.read.2 (out.push r.peek.1)
      | (some ts, after) => expandOnto table condition active after (out ++ ts) := by
  have called : r.replace table condition active = r.call table active := by
    unfold Reader.replace
    rw [if_neg fun word => other word.1 word.2, Reader.call_peek]
  rw [expandOnto, dif_neg going, Reader.expandCall]
  split <;> rename_i found <;> rw [called] at found <;> rw [found]
  · rw [Reader.read_peek]
  · simp only [expand, append_toList]

/-- A token that names no macro stays. -/
theorem expandOnto_of_unnamed (going : r.peek.1.kind ≠ .eof)
    (other : condition → ¬(r.peek.1.kind = .symbol ∧ r.peek.1.lexeme = "defined"))
    (plain : table.named? r.peek.1 = none) :
    expandOnto table condition active r out =
      expandOnto table condition active r.read.2 (out.push r.peek.1) := by
  rw [expandOnto_eq going other, Reader.expandCall_of_unnamed plain]

end Macro

/-! ## What is left of a captured list -/

namespace Reader

/-- The reader is over a captured list, which has these tokens left in front of its end. -/
def Replays (r : Reader) (ts : List Token) : Prop :=
  ∃ left last, r.source = .replay left last ∧ Token.untilEnd (r.lookahead ++ left) = ts

theorem replays_ofTokens (ts : List Token) (ds : List Diagnostic) :
    (ofTokens ts ds).Replays (Token.untilEnd ts) :=
  ⟨ts, .ofTokens ts, rfl, rfl⟩

namespace Replays

variable {r : Reader} {t : Token} {ts : List Token}

theorem with_diagnostics (h : r.Replays ts) (ds : List Diagnostic) :
    Replays { r with diagnostics := ds } ts :=
  h

/-- When nothing is left, the end is seen. -/
theorem atEnd (h : r.Replays []) :
    r.peek.1.kind = .eof ∧ r.peek.2.diagnostics = r.diagnostics := by
  obtain ⟨source, lookahead, ds⟩ := r
  obtain ⟨left, last, rfl, none⟩ := h
  have first : ∀ {t ts}, Token.untilEnd (t :: ts) = [] → t.kind = .eof := by
    intro t ts none
    refine Decidable.byContradiction fun going => ?_
    rw [Token.untilEnd_cons going] at none
    cases none
  cases lookahead with
  | cons t rest => exact ⟨first none, rfl⟩
  | nil =>
    cases left with
    | cons t left => exact ⟨first none, List.append_nil ds⟩
    | nil => exact ⟨rfl, List.append_nil ds⟩

/-- The first token that is left is seen, and reading leaves the others. -/
theorem front (h : r.Replays (t :: ts)) :
    r.peek.1 = t ∧ t.kind ≠ .eof ∧ r.peek.2.diagnostics = r.diagnostics ∧
      r.read.2.Replays ts ∧ r.read.2.diagnostics = r.diagnostics := by
  obtain ⟨source, lookahead, ds⟩ := r
  obtain ⟨left, last, rfl, some⟩ := h
  have split : ∀ {u us}, Token.untilEnd (u :: us) = t :: ts →
      u = t ∧ t.kind ≠ .eof ∧ Token.untilEnd us = ts := by
    intro u us some
    by_cases ended : u.kind = .eof
    · rw [Token.untilEnd_cons_of_end ended] at some
      cases some
    · rw [Token.untilEnd_cons ended] at some
      obtain ⟨rfl, rest⟩ := List.cons.inj some
      exact ⟨rfl, ended, rest⟩
  cases lookahead with
  | cons u rest =>
    obtain ⟨rfl, going, rest⟩ := split some
    rw [read_cons, if_neg going]
    exact ⟨rfl, going, rfl, ⟨left, last, rfl, rest⟩, rfl⟩
  | nil =>
    cases left with
    | nil => cases some
    | cons u left =>
      obtain ⟨rfl, going, rest⟩ := split some
      have pulled : Source.next (.replay (u :: left) last) = (u, none, .replay left last) := rfl
      rw [read_nil pulled, if_neg going]
      exact ⟨rfl, going, List.append_nil ds, ⟨left, last, rfl, rest⟩, List.append_nil ds⟩

/-- Pulling a token changes nothing about what is left. -/
theorem pull (h : r.Replays ts) : r.pull.Replays ts ∧ r.pull.diagnostics = r.diagnostics := by
  obtain ⟨source, lookahead, ds⟩ := r
  obtain ⟨left, last, rfl, rfl⟩ := h
  refine ⟨?_, by cases left <;> exact List.append_nil ds⟩
  cases left with
  | cons u left => exact ⟨left, last, rfl, by simp [Reader.pull, Source.next]⟩
  | nil =>
    refine ⟨[], last, rfl, ?_⟩
    -- Behind the list only its end can be pulled.
    simp only [Reader.pull, Source.next, List.append_nil]
    exact Token.untilEnd_append_end rfl lookahead

/-- What is seen behind blanks is a token that is left, or the end. -/
theorem mem_of_blanks {blanks rest : List Token} (blank : ∀ b ∈ blanks, b.kind = .whitespace)
    (left : Token.untilEnd (blanks ++ t :: rest) = ts) : t ∈ ts ∨ t.kind = .eof := by
  by_cases ended : t.kind = .eof
  · exact .inr ended
  · have solid : ∀ b ∈ blanks, (b.kind != .eof) = true := fun b mem => by simp [blank b mem]
    rw [Token.untilEnd, List.takeWhile_append_of_pos solid,
      List.takeWhile_cons_of_pos (by simpa using ended)] at left
    rw [← left]
    exact .inl (List.mem_append_right _ List.mem_cons_self)

theorem pullNoWhitespace (h : r.Replays ts) (blank : ∀ b ∈ r.lookahead, b.kind = .whitespace)
    (distance : Nat) :
    (r.pullNoWhitespace distance).2.Replays ts ∧
      (r.pullNoWhitespace distance).2.diagnostics = r.diagnostics ∧
      ((r.pullNoWhitespace distance).1.1 ∈ ts ∨ (r.pullNoWhitespace distance).1.1.kind = .eof) := by
  fun_induction Reader.pullNoWhitespace r distance with
  | case1 r distance pulled isBlank ih =>
    obtain ⟨left, same⟩ := h.pull
    obtain ⟨after, ds, seen⟩ := ih left (by
      intro b mem
      rcases List.mem_append.1 mem with old | new
      · exact blank b old
      · rw [List.mem_singleton.1 new]
        exact isBlank)
    exact ⟨after, ds.trans same, seen⟩
  | case2 r distance pulled solid =>
    refine ⟨h.pull.1, h.pull.2, ?_⟩
    obtain ⟨left, last, source, rfl⟩ := h
    cases left with
    | nil =>
      right
      simp [pulled, source, Source.next, EndPlace.token]
    | cons u left =>
      have seen : pulled.1 = u := by simp [pulled, source, Source.next]
      rw [seen]
      exact mem_of_blanks blank rfl

/-- There are only blanks, or a first token that is not blank. -/
theorem exists_solid (ts : List Token) :
    (∀ b ∈ ts, b.kind = .whitespace) ∨ ∃ blanks t rest, ts = blanks ++ t :: rest ∧
      (∀ b ∈ blanks, b.kind = .whitespace) ∧ t.kind ≠ .whitespace := by
  induction ts with
  | nil => exact .inl (List.forall_mem_nil _)
  | cons t ts ih =>
    by_cases isBlank : t.kind = .whitespace
    · rcases ih with blank | ⟨blanks, u, rest, rfl, blank, solid⟩
      · exact .inl (List.forall_mem_cons.2 ⟨isBlank, blank⟩)
      · exact .inr ⟨t :: blanks, u, rest, rfl, List.forall_mem_cons.2 ⟨isBlank, blank⟩, solid⟩
    · exact .inr ⟨[], t, ts, rfl, List.forall_mem_nil _, isBlank⟩

/-- Looking for a token that is not blank consumes nothing. -/
theorem peekNoWhitespace (h : r.Replays ts) :
    r.peekNoWhitespace.2.Replays ts ∧ r.peekNoWhitespace.2.diagnostics = r.diagnostics ∧
      (r.peekNoWhitespace.1.1 ∈ ts ∨ r.peekNoWhitespace.1.1.kind = .eof) := by
  rcases exists_solid r.lookahead with blank | ⟨blanks, t, rest, pulled, blank, solid⟩
  · rw [peekNoWhitespace_of_blank blank]
    exact h.pullNoWhitespace blank _
  · rw [peekNoWhitespace_of_lookahead blank solid pulled]
    obtain ⟨left, last, -, some⟩ := id h
    rw [pulled, List.append_assoc] at some
    exact ⟨h, rfl, mem_of_blanks blank some⟩

end Replays

end Reader

/-! ## Lists that name no macro -/

/-- A list that names no macro expands to itself.  In a condition it must not ask for a name with
`defined` either. -/
theorem Macro.expand_of_unnamed {table : Table} {condition : Bool} (active : List String)
    {ts : List Token} (plain : ∀ t ∈ Token.untilEnd ts, table.named? t = none)
    (other : condition → ∀ t ∈ Token.untilEnd ts, ¬(t.kind = .symbol ∧ t.lexeme = "defined"))
    (ds : List Diagnostic) :
    expand table condition active ts ds = (Token.untilEnd ts, ds) := by
  have passes : ∀ {us : List Token} {r : Reader} (out : Array Token), r.Replays us →
      (∀ t ∈ us, table.named? t = none) →
      (condition → ∀ t ∈ us, ¬(t.kind = .symbol ∧ t.lexeme = "defined")) →
      expandOnto table condition active r out = (out ++ us, r.diagnostics) := by
    intro us
    induction us with
    | nil =>
      intro r out replays _ _
      obtain ⟨ended, same⟩ := replays.atEnd
      rw [expandOnto_of_end ended, same, Array.appendList_nil]
    | cons t us ih =>
      intro r out replays plain other
      obtain ⟨rfl, going, -, after, same⟩ := replays.front
      rw [expandOnto_of_unnamed going (fun c => other c _ List.mem_cons_self)
          (plain _ List.mem_cons_self),
        ih _ after (fun t mem => plain t (List.mem_cons_of_mem _ mem))
          (fun c t mem => other c t (List.mem_cons_of_mem _ mem)), same, Array.appendList_cons]
  have ran := passes #[] (Reader.replays_ofTokens ts ds) plain other
  rw [expand, ran]
  simp [Reader.ofTokens]

end RoomScript
