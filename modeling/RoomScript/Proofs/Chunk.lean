import Mathlib.Tactic
import RoomScript.Chunk

/-!
# Chunks and procedure lists

Splitting and joining are inverse to each other: the byte strings that split into procedures are
exactly the chunks of non-empty procedure lists.

* `starts` lists the offsets at which procedures begin, `tableFrom_eq_ok_iff` says that a table is
  exactly these offsets, all within sixteen bits;
* `words_flatMap_wordBytes` and `flatMap_wordBytes_words` read and write the words of a table;
* `cut_starts` and `starts_of_cut` tie the bounds of a cut to the running sum of lengths.
-/

namespace RoomScript.Chunk

/-! ## Words -/

theorem words_cons_wordBytes {n : ℕ} (hn : n ≤ 0xFFFF) (rest : List UInt8) :
    words (wordBytes n ++ rest) = n :: words rest := by
  have low : (UInt8.ofNat (n % 256)).toNat = n % 256 := by
    rw [UInt8.toNat_ofNat']; omega
  have high : (UInt8.ofNat (n / 256)).toNat = n / 256 := by
    rw [UInt8.toNat_ofNat']; omega
  simp only [wordBytes, List.cons_append, List.nil_append, words, low, high]
  congr 1
  omega

/-- The words of a table that is written word by word, in front of other bytes. -/
theorem words_flatMap_wordBytes_append {ns : List ℕ} (h : ∀ n ∈ ns, n ≤ 0xFFFF)
    (rest : List UInt8) : words (ns.flatMap wordBytes ++ rest) = ns ++ words rest := by
  induction ns with
  | nil => rfl
  | cons n ns ih =>
    obtain ⟨small, fit⟩ := List.forall_mem_cons.1 h
    rw [List.flatMap_cons, List.append_assoc, words_cons_wordBytes small, ih fit, List.cons_append]

/-- The words of a table that is written word by word. -/
theorem words_flatMap_wordBytes {ns : List ℕ} (h : ∀ n ∈ ns, n ≤ 0xFFFF) :
    words (ns.flatMap wordBytes) = ns := by
  simpa [words] using words_flatMap_wordBytes_append h []

theorem wordBytes_word (low high : UInt8) :
    wordBytes (low.toNat + 256 * high.toNat) = [low, high] := by
  have hl := low.toNat_lt
  have hh := high.toNat_lt
  rw [wordBytes, show (low.toNat + 256 * high.toNat) % 256 = low.toNat by omega,
    show (low.toNat + 256 * high.toNat) / 256 = high.toNat by omega, UInt8.ofNat_toNat,
    UInt8.ofNat_toNat]

/-- Writing the words of a byte string of even length gives the byte string. -/
theorem flatMap_wordBytes_words {bytes : List UInt8} (even : bytes.length % 2 = 0) :
    (words bytes).flatMap wordBytes = bytes := by
  fun_induction words bytes with
  | case1 low high rest ih =>
    rw [List.flatMap_cons, wordBytes_word, ih (by simp at even; omega)]
    rfl
  | case2 bytes short =>
    match bytes, short with
    | [], _ => rfl
    | [_], _ => simp at even
    | a :: b :: rest, h => exact absurd rfl (h a b rest)

theorem word_le (low high : UInt8) : low.toNat + 256 * high.toNat ≤ 0xFFFF := by
  have hl := low.toNat_lt
  have hh := high.toNat_lt
  omega

theorem le_of_mem_words {bytes : List UInt8} {n : ℕ} (h : n ∈ words bytes) : n ≤ 0xFFFF := by
  fun_induction words bytes with
  | case1 low high rest ih =>
    rcases List.mem_cons.1 h with rfl | h
    · exact word_le low high
    · exact ih h
  | case2 => simp at h

theorem length_words (bytes : List UInt8) : (words bytes).length = bytes.length / 2 := by
  fun_induction words bytes with
  | case1 low high rest ih =>
    simp only [List.length_cons, ih]
    omega
  | case2 bytes short =>
    match bytes, short with
    | [], _ => rfl
    | [_], _ => simp
    | a :: b :: rest, h => exact absurd rfl (h a b rest)

/-! ## Running offsets -/

/-- The offsets at which procedures begin that are put one after the other from `offset` on. -/
def starts (offset : ℕ) : List (List UInt8) → List ℕ
  | [] => []
  | p :: rest => offset :: starts (offset + p.length) rest

@[simp] theorem length_starts (offset : ℕ) (procedures : List (List UInt8)) :
    (starts offset procedures).length = procedures.length := by
  induction procedures generalizing offset with
  | nil => rfl
  | cons p rest ih => simp [starts, ih]

/-- A table exists when every offset fits into a word, and it is the list of the offsets. -/
theorem tableFrom_eq_ok_iff {index offset : ℕ} {procedures : List (List UInt8)}
    {table : List UInt8} :
    tableFrom index offset procedures = .ok table ↔
      (∀ n ∈ starts offset procedures, n ≤ 0xFFFF) ∧
        table = (starts offset procedures).flatMap wordBytes := by
  induction procedures generalizing index offset table with
  | nil => simp [tableFrom, starts, eq_comm]
  | cons p rest ih =>
    simp only [tableFrom, starts, List.forall_mem_cons, List.flatMap_cons]
    by_cases late : 0xFFFF < offset
    · simp [late, Nat.not_le.2 late]
    · rw [if_neg late]
      cases next : tableFrom (index + 1) (offset + p.length) rest with
      | error e =>
        have unfit : ¬∀ n ∈ starts (offset + p.length) rest, n ≤ 0xFFFF := fun fit => by
          have := (@ih (index + 1) _ _).2 ⟨fit, rfl⟩
          rw [next] at this
          cases this
        simp [unfit]
      | ok tail =>
        obtain ⟨fit, rfl⟩ := ih.1 next
        simp only [Except.ok.injEq, Nat.not_lt.1 late, true_and, and_iff_right fit, eq_comm]

/-- Procedures are cut out again at the offsets where they begin. -/
theorem cut_starts (table size index offset : ℕ) (procedures : List (List UInt8))
    (low : table ≤ offset) (total : offset + procedures.flatten.length = size) :
    cut table size index (starts offset procedures ++ [size]) procedures.flatten =
      .ok procedures := by
  induction procedures generalizing index offset with
  | nil => simp [starts, cut]
  | cons p rest ih =>
    simp only [List.flatten_cons, List.length_append] at total
    have next := ih (index + 1) (offset + p.length) (by omega) (by omega)
    -- A procedure ends where the next one begins, and the last one at the end of the chunk.
    cases rest with
    | nil =>
      simp only [List.flatten_nil, List.length_nil] at total
      have width : size - offset = p.length := by omega
      simp [starts, cut, width, show ¬(offset < table ∨ size < offset) by omega]
    | cons q rest =>
      simp only [starts, List.cons_append] at next ⊢
      rw [cut, if_neg (by simp at total; omega), Nat.add_sub_cancel_left, List.flatten_cons,
        List.drop_left, List.take_left, next]

/-- Bounds that a byte string can be cut at are the offsets of its procedures. -/
theorem starts_of_cut {table size index first : ℕ} {bounds : List ℕ} {rest : List UInt8}
    {procedures : List (List UInt8)} (total : first + rest.length = size)
    (h : cut table size index (first :: bounds ++ [size]) rest = .ok procedures) :
    starts first procedures = first :: bounds ∧ procedures.flatten = rest := by
  induction bounds generalizing index first rest procedures with
  | nil =>
    simp only [List.cons_append, List.nil_append, cut] at h
    split at h
    · cases h
    · cases h
      simp [starts, show size - first = rest.length by omega]
  | cons last bounds ih =>
    rw [List.cons_append, List.cons_append, cut] at h
    split at h
    · cases h
    · rename_i inside
      split at h
      · rename_i tail found
        cases h
        obtain ⟨offsets, bytes⟩ := ih (by rw [List.length_drop]; omega) found
        have width : (rest.take (last - first)).length = last - first := by
          rw [List.length_take]; omega
        refine ⟨?_, ?_⟩
        · rw [starts, width, show first + (last - first) = last by omega, offsets]
        · rw [List.flatten_cons, bytes, List.take_append_drop]
      · cases h

/-! ## Splitting and joining -/

theorem split_of_join {procedures : List (List UInt8)} {chunk : List UInt8}
    (h : join procedures = .ok chunk) : split chunk = .ok procedures := by
  cases procedures with
  | nil => cases h
  | cons p rest =>
    unfold join at h
    split at h
    · cases h
    · split at h
      · rename_i table found
        cases h
        obtain ⟨fit, rfl⟩ := tableFrom_eq_ok_iff.1 found
        set procedures := p :: rest with listed
        set ns := starts (2 * procedures.length) procedures with offsets
        -- The first offset is the length of the table, because it counts two bytes a procedure.
        have size : (ns.flatMap wordBytes).length = 2 * procedures.length := by
          rw [List.length_flatMap, show (fun n => (wordBytes n).length) = fun _ => 2 from rfl]
          simp [ns, Nat.mul_comm]
        have first : ns = 2 * procedures.length :: starts (2 * procedures.length + p.length) rest :=
          rfl
        have bound := fit (2 * procedures.length) (by rw [first]; simp)
        have words := words_flatMap_wordBytes fit
        have head : ∃ low high tail, ns.flatMap wordBytes = low :: high :: tail ∧
            low.toNat + 256 * high.toNat = 2 * procedures.length := by
          rw [first, List.flatMap_cons]
          refine ⟨_, _, _, rfl, ?_⟩
          rw [UInt8.toNat_ofNat', UInt8.toNat_ofNat']
          omega
        obtain ⟨low, high, tail, bytes, word⟩ := head
        have positive : 0 < procedures.length := by simp [procedures]
        rw [bytes, List.cons_append, List.cons_append, split]
        simp only [word]
        rw [← List.cons_append, ← List.cons_append, ← bytes, if_neg (by simp [size]),
          List.take_left' size, List.drop_left' size, words]
        exact cut_starts _ _ _ _ _ le_rfl (by simp [size])
      · cases h

theorem join_of_split {chunk : List UInt8} {procedures : List (List UInt8)}
    (h : split chunk = .ok procedures) : join procedures = .ok chunk := by
  unfold split at h
  split at h
  · rename_i low high tail
    simp only at h
    generalize bytes : low :: high :: tail = chunk at h
    generalize word : low.toNat + 256 * high.toNat = table at h
    split at h
    · cases h
    · rename_i good
      have length : (chunk.take table).length = table := by rw [List.length_take]; omega
      -- The table starts with its own length, so its words are `table` and some bounds.
      have first : ∃ bounds, words (chunk.take table) = table :: bounds := by
        refine ⟨words (tail.take (table - 2)), ?_⟩
        rw [← bytes, show table = table - 2 + 2 by omega, List.take_succ_cons, List.take_succ_cons,
          words, word]
        simp only [Nat.add_sub_cancel]
        congr 1
        omega
      obtain ⟨bounds, table_words⟩ := first
      rw [table_words] at h
      obtain ⟨offsets, rest⟩ := starts_of_cut (by rw [List.length_drop]; omega) h
      have count : 2 * procedures.length = table := by
        have := congrArg List.length offsets
        rw [length_starts, ← table_words, length_words, length] at this
        omega
      have fit : ∀ n ∈ starts table procedures, n ≤ 0xFFFF := by
        rw [offsets, ← table_words]
        exact fun n hn => le_of_mem_words hn
      have written : tableFrom 0 table procedures = .ok (chunk.take table) := by
        refine tableFrom_eq_ok_iff.2 ⟨fit, ?_⟩
        rw [offsets, ← table_words, flatMap_wordBytes_words (by rw [length]; omega)]
      have filled : procedures.isEmpty = false := by
        cases procedures with
        | nil => simp at count; omega
        | cons => rfl
      rw [join, filled, if_neg (by simp), count, written]
      simp [rest]
  · cases h

/-- **Splitting and joining are inverse to each other.**  A byte string splits into exactly those
non-empty procedure lists that join to it, so the byte strings that split are the chunks of
procedure lists. -/
theorem split_eq_ok_iff (chunk : List UInt8) (procedures : List (List UInt8)) :
    (split chunk = .ok procedures ↔ procedures ≠ [] ∧ join procedures = .ok chunk) ∧
      ((∃ procedures, split chunk = .ok procedures) ↔
        ∃ procedures, procedures ≠ [] ∧ join procedures = .ok chunk) := by
  have inverse : ∀ procedures, split chunk = .ok procedures ↔
      procedures ≠ [] ∧ join procedures = .ok chunk := by
    intro procedures
    constructor
    · intro h
      refine ⟨?_, join_of_split h⟩
      rintro rfl
      cases join_of_split h
    · rintro ⟨-, h⟩
      exact split_of_join h
  exact ⟨inverse procedures, exists_congr inverse⟩

example : split [4, 0, 4, 0, 7] = .ok [[], [7]] := by decide

end RoomScript.Chunk
