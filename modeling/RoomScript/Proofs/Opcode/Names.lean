import Mathlib.Tactic
import RoomScript.Opcode.Names
import RoomScript.Proofs.Opcode.Table
import RoomScript.Proofs.Text.Number
import RoomScript.Script

/-!
# Names lead back to their values

Every name that an operand value has is looked up under the beginning it carries, and the values of
one operand character have different names.  So a name gives the value it was made from.

* `symbolValue?_of_begins` decides where a name is looked up;
* `reversible` tells the values of one character apart;
* `isSymbol_of_valueName?`, `isSymbol_of_flagName?` and `isSymbol_of_instructionName?` are the way
  from a value to its name and back.
-/

namespace RoomScript

namespace Text

/-- A text that begins with a letter is no literal. -/
theorem int32?_of_letter {s : String} {c : Char} {cs : List Char} (chars : s.toList = c :: cs)
    (plain : c ∉ ['-', '+', '0', '_']) (large : ∀ d, digitValue? c = some d → 10 ≤ d) :
    int32? s = none := by
  simp only [List.mem_cons, List.not_mem_nil, or_false, not_or] at plain
  obtain ⟨minus, plus, zero, underscore⟩ := plain
  have read : ∀ limit, ∃ e, digitsValue 10 limit 0 (c :: cs) = .error e := by
    intro limit
    rw [digitsValue.eq_def]
    cases found : digitValue? c with
    | none => exact ⟨.malformed, by simp [found]⟩
    | some d => exact ⟨.malformed, by simp [found, large d found]⟩
  obtain ⟨e, fault⟩ := read (Nat.pow 2 32 - 1)
  have base : literalBase (c :: cs) = (10, c :: cs) := by
    unfold literalBase
    split
    · rename_i h
      exact absurd (List.cons.inj h).1 zero
    · rename_i h
      exact absurd (List.cons.inj h).1 zero
    · rfl
  have literal : unsignedLiteral 32 (c :: cs) = .error e := by
    rw [unsignedLiteral, base, fault]
    rfl
  simp [int32?, intLiteral, chars, minus, plus, literal, Except.toOption]

end Text

namespace Opcode

/-! ## Where a name is looked up -/

/-- No family's beginning begins another family's or a fixed name, and all begin with a letter. -/
theorem symbolFamilies_sound :
    (∀ f ∈ symbolFamilies, ∀ g ∈ symbolFamilies, f.1.toList.isPrefixOf g.1.toList = true → f = g) ∧
      (∀ f ∈ symbolFamilies, ∀ g ∈ fixedSymbols, f.1.toList.isPrefixOf g.1.toList = false) ∧
      ∀ f ∈ symbolFamilies, f.1.toList.head?.any (fun c =>
        !(['-', '+', '0', '_'].contains c) && (Text.digitValue? c).all (10 ≤ ·)) = true := by
  decide +kernel

section Families

variable {symbol : String} {family : String × Option Char}

/-- A name with the beginning of a family is no fixed name. -/
theorem notMem_fixedSymbols (mem : family ∈ symbolFamilies)
    (begins : family.1.toList <+: symbol.toList) (v : ℤ) : (symbol, v) ∉ fixedSymbols := by
  intro fixed
  have clash := symbolFamilies_sound.2.1 family mem _ fixed
  rw [List.isPrefixOf_iff_prefix.2 begins] at clash
  cases clash

theorem find?_symbolFamilies (mem : family ∈ symbolFamilies)
    (begins : family.1.toList <+: symbol.toList) :
    symbolFamilies.find? (fun f => f.1.toList.isPrefixOf symbol.toList) = some family := by
  cases found : symbolFamilies.find? fun f => f.1.toList.isPrefixOf symbol.toList with
  | none =>
    have absent := List.find?_eq_none.1 found family mem
    exact absurd (List.isPrefixOf_iff_prefix.2 begins) absent
  | some other =>
    have begins' : other.1.toList <+: symbol.toList := by simpa using List.find?_some found
    have mem' := List.mem_of_find?_eq_some found
    -- Of two beginnings of one name, one begins the other.
    rcases List.prefix_or_prefix_of_prefix begins begins' with h | h
    · rw [symbolFamilies_sound.1 family mem other mem' (List.isPrefixOf_iff_prefix.2 h)]
    · rw [symbolFamilies_sound.1 other mem' family mem (List.isPrefixOf_iff_prefix.2 h)]

/-- A name with the beginning of a family is looked up in that family. -/
theorem symbolValue?_of_begins (mem : family ∈ symbolFamilies)
    (begins : family.1.toList <+: symbol.toList) :
    symbolValue? symbol =
      match family.2 with
      | some kind => namedValue? kind symbol
      | none => flagValue? symbol := by
  have notFixed : fixedSymbols.lookup symbol = none := by
    rw [List.lookup_eq_none_iff]
    intro f hf
    rw [bne_iff_ne]
    rintro rfl
    exact notMem_fixedSymbols mem begins f.2 hf
  have noLiteral : Text.int32? symbol = none := by
    have first := symbolFamilies_sound.2.2 family mem
    obtain ⟨rest, chars⟩ := begins
    cases mark : family.1.toList with
    | nil =>
      rw [mark] at first
      cases first
    | cons c cs =>
      rw [mark] at first chars
      simp only [List.head?_cons, Option.any_some, Bool.and_eq_true, Bool.not_eq_true',
        List.contains_eq_mem, decide_eq_false_iff_not] at first
      refine Text.int32?_of_letter chars.symm first.1 fun d hd => ?_
      simpa [hd] using first.2
  unfold symbolValue?
  rw [notFixed, noLiteral, find?_symbolFamilies mem begins]
  obtain ⟨mark, kind?⟩ := family
  cases kind? <;> rfl

end Families

/-- The value that a name was made from is found when no other value has the name. -/
theorem namedValue?_eq {kind : Char} {name : String} {v : ℕ} (small : v < 256)
    (named : valueName? kind v = some name)
    (injective : ∀ w : ℕ, valueName? kind w = some name → w = v) :
    namedValue? kind name = some (v : ℤ) := by
  unfold namedValue?
  cases found : (List.range 256).find? fun (w : ℕ) => valueName? kind w == some name with
  | none =>
    have absent := List.find?_eq_none.1 found v (List.mem_range.2 small)
    simp [named] at absent
  | some w =>
    have hit : valueName? kind w = some name := by simpa using List.find?_some found
    rw [injective w hit]
    rfl

/-! ## Tables of names -/

/-- A name with a mark in front and name characters after it. -/
def Carries (mark name : String) : Prop :=
  ∃ rest, name.toList = mark.toList ++ rest ∧ ∀ c ∈ rest, isIdentPart c = true

theorem Carries.append {mark : String} {text : String}
    (all : ∀ c ∈ text.toList, isIdentPart c = true) : Carries mark (mark ++ text) :=
  ⟨text.toList, String.toList_append, all⟩

theorem carries_of_isPrefixOf {mark name : String}
    (begins : mark.toList.isPrefixOf name.toList = true)
    (all : name.toList.all isIdentPart = true) : Carries mark name := by
  obtain ⟨rest, chars⟩ := List.isPrefixOf_iff_prefix.1 begins
  refine ⟨rest, chars.symm, fun c hc => List.all_eq_true.1 all c ?_⟩
  rw [← chars]
  exact List.mem_append_right _ hc

/-- Names that carry a mark and are all different, empty entries apart. -/
structure IsTable (mark : String) (names : List String) : Prop where
  nodup : (names.filter (· ≠ "")).Nodup
  carries : ∀ name ∈ names, name ≠ "" → Carries mark name

theorem entry?_eq_some_iff {names : List String} {v : ℤ} {name : String} :
    entry? names.toArray v = some name ↔ 0 ≤ v ∧ names[v.toNat]? = some name ∧ name ≠ "" := by
  unfold entry?
  rw [List.getElem?_toArray]
  by_cases negative : v < 0
  · simp [negative]
  · simp [negative, Option.filter_eq_some_iff, Int.not_lt.1 negative]

namespace IsTable

variable {mark name : String} {names : List String} {v w : ℤ}

theorem injective (table : IsTable mark names) (hv : entry? names.toArray v = some name)
    (hw : entry? names.toArray w = some name) : v = w := by
  obtain ⟨nonneg, found, filled⟩ := entry?_eq_some_iff.1 hv
  obtain ⟨nonneg', found', -⟩ := entry?_eq_some_iff.1 hw
  have := eq_of_getElem?_of_nodup_filter table.nodup filled found found'
  omega

theorem carries_entry (table : IsTable mark names) (h : entry? names.toArray v = some name) :
    Carries mark name := by
  obtain ⟨-, found, filled⟩ := entry?_eq_some_iff.1 h
  exact table.carries name (List.mem_of_getElem? found) filled

end IsTable

theorem mem_nameChars {made : List Char} {gap : Bool} {cs : List Char}
    (all : ∀ c ∈ made, isIdentPart c = true) :
    ∀ c ∈ nameChars made gap cs, isIdentPart c = true := by
  induction cs generalizing made gap with
  | nil => simpa [nameChars] using all
  | cons d cs ih =>
    rw [nameChars]
    split
    · rename_i named
      have part : isIdentPart d = true := by
        simp only [isNameChar, Bool.or_eq_true, Bool.and_eq_true, decide_eq_true_eq] at named
        simp only [isIdentPart, isIdentStart, Bool.or_eq_true, Bool.and_eq_true,
          decide_eq_true_eq, beq_iff_eq]
        tauto
      refine ih ?_
      split
      · exact List.forall_mem_cons.2 ⟨part, List.forall_mem_cons.2 ⟨by decide, all⟩⟩
      · exact List.forall_mem_cons.2 ⟨part, all⟩
    · exact ih all

/-- The name characters of a display text. -/
def displayChars (text : String) : List Char :=
  nameChars [] false (text.toList.map Char.toUpper)

theorem displayName_eq (mark text : String) :
    displayName mark text =
      if displayChars text = [] then "" else mark ++ String.ofList (displayChars text) := by
  unfold displayName
  split
  · rename_i empty
    exact (if_pos empty).symm
  · rename_i filled
    exact (if_neg filled).symm

theorem displayName_eq_empty_iff (mark text : String) :
    displayName mark text = "" ↔ displayChars text = [] := by
  rw [displayName_eq]
  split
  · simp [*]
  · simp [*]

/-- Display texts whose name characters differ give a table. -/
theorem isTable_displayName (mark : String) {texts : List String}
    (nodup : ((texts.map displayChars).filter (· ≠ [])).Nodup) :
    IsTable mark (texts.map (displayName mark)) := by
  constructor
  · have injective : Function.Injective fun cs => mark ++ String.ofList cs := by
      intro cs ds same
      exact String.ofList_injective ((String.append_right_inj mark).1 same)
    have named : (texts.map (displayName mark)).filter (· ≠ "") =
        ((texts.map displayChars).filter (· ≠ [])).map fun cs => mark ++ String.ofList cs := by
      rw [List.filter_map, List.filter_map, List.map_map]
      have filters : ((fun name => decide (name ≠ "")) ∘ displayName mark) =
          (fun cs => decide (cs ≠ [])) ∘ displayChars := by
        funext text
        simp [displayName_eq_empty_iff]
      rw [filters]
      refine List.map_congr_left fun text mem => ?_
      have filled : displayChars text ≠ [] := by simpa using (List.mem_filter.1 mem).2
      rw [displayName_eq, if_neg filled]
      rfl
    rw [named]
    exact nodup.map injective
  · intro name mem filled
    obtain ⟨text, -, rfl⟩ := List.mem_map.1 mem
    rw [Ne, displayName_eq_empty_iff] at filled
    rw [displayName_eq, if_neg filled]
    refine .append ?_
    rw [String.toList_ofList]
    exact mem_nameChars (by simp)

theorem isTable_enemies : IsTable "ENEMY_" (enemies.map (displayName "ENEMY_")) :=
  isTable_displayName _ (by decide +kernel)

theorem isTable_items : IsTable "ITEM_" (items.map (displayName "ITEM_")) :=
  isTable_displayName _ (by decide +kernel)

/-- The tables that are written out, with their marks. -/
def writtenTables : List (String × List String) :=
  [("CMP_", comparators), ("OP_", operators), ("SCE_", sceneEvents), ("WK_", workKinds),
    ("FG_", flagGroups)]

theorem isTable_written : ∀ t ∈ writtenTables, IsTable t.1 t.2 := by
  have checked : ∀ t ∈ writtenTables, (t.2.filter (· ≠ "")).Nodup ∧
      ∀ name ∈ t.2, name = "" ∨
        (t.1.toList.isPrefixOf name.toList = true ∧ name.toList.all isIdentPart = true) := by
    decide +kernel
  intro t ht
  obtain ⟨nodup, begins⟩ := checked t ht
  refine ⟨nodup, fun name mem filled => ?_⟩
  obtain ⟨begins, all⟩ := (begins name mem).resolve_left filled
  exact carries_of_isPrefixOf begins all

/-! ## Names of one operand character -/

theorem isIdentPart_of_mem_decimal {n : ℤ} (nonneg : 0 ≤ n) :
    ∀ c ∈ (Text.decimal 0 n).toList, isIdentPart c = true := by
  intro c hc
  rw [Text.toList_decimal_of_nonneg nonneg] at hc
  obtain ⟨d, small, rfl⟩ := Text.exists_digit_of_mem (by decide) hc
  clear hc
  revert d
  decide

theorem isIdentPart_of_mem_hex {width : ℕ} {n : ℤ} (nonneg : 0 ≤ n) :
    ∀ c ∈ (Text.hex width n).toList, isIdentPart c = true := by
  intro c hc
  obtain ⟨d, small, rfl⟩ := Text.mem_hex nonneg hc
  clear hc
  revert d
  decide

/-- The names of an operand character are looked up under that character, and are different for
different values. -/
structure Reversible (kind : Char) : Prop where
  lookedUp : ∀ {v : ℤ} {name : String}, 0 ≤ v → valueName? kind v = some name →
    (name, v) ∈ fixedSymbols ∨ ∃ mark, (mark, some kind) ∈ symbolFamilies ∧ Carries mark name
  injective : ∀ {v w : ℤ} {name : String}, 0 ≤ v → 0 ≤ w → valueName? kind v = some name →
    valueName? kind w = some name → v = w

namespace Reversible

/-- Fixed names besides names that carry one mark. -/
theorem of_either {kind : Char} (mark : String) (inner : ℤ → String → Prop)
    (either : ∀ {v : ℤ} {name : String}, 0 ≤ v → valueName? kind v = some name →
      (name, v) ∈ fixedSymbols ∨
        ((mark, some kind) ∈ symbolFamilies ∧ Carries mark name) ∧ inner v name)
    (injective : ∀ {v w : ℤ} {name : String}, 0 ≤ v → 0 ≤ w → inner v name → inner w name → v = w) :
    Reversible kind := by
  have once : ∀ f ∈ fixedSymbols, ∀ g ∈ fixedSymbols, f.1 = g.1 → f.2 = g.2 := by decide +kernel
  have apart : ∀ {v : ℤ} {name : String}, (name, v) ∈ fixedSymbols →
      (mark, some kind) ∈ symbolFamilies → ¬Carries mark name := by
    rintro v name fixed family ⟨rest, chars, -⟩
    exact notMem_fixedSymbols family ⟨rest, chars.symm⟩ v fixed
  constructor
  · intro v name nonneg named
    rcases either nonneg named with fixed | ⟨carries, -⟩
    · exact .inl fixed
    · exact .inr ⟨mark, carries⟩
  · intro v w name hv hw named named'
    rcases either hv named with fixed | ⟨carries, inside⟩ <;>
      rcases either hw named' with fixed' | ⟨carries', inside'⟩
    · exact once _ fixed _ fixed' rfl
    · exact absurd carries'.2 (apart fixed carries'.1)
    · exact absurd carries.2 (apart fixed' carries.1)
    · exact injective hv hw inside inside'

theorem of_table {kind : Char} {mark : String} {names : List String} (table : IsTable mark names)
    (family : (mark, some kind) ∈ symbolFamilies)
    (named : ∀ v : ℤ, valueName? kind v = entry? names.toArray v) : Reversible kind := by
  refine of_either mark (fun v name => entry? names.toArray v = some name) ?_ ?_
  · intro v name _ found
    rw [named] at found
    exact .inr ⟨⟨family, table.carries_entry found⟩, found⟩
  · intro v w name _ _ found found'
    exact table.injective found found'

theorem of_numbered {kind : Char} (mark : String) (family : (mark, some kind) ∈ symbolFamilies)
    (named : ∀ v : ℤ, valueName? kind v = some (mark ++ Text.decimal 0 v)) : Reversible kind := by
  refine of_either mark (fun v name => mark ++ Text.decimal 0 v = name) ?_ ?_
  · intro v name nonneg found
    rw [named] at found
    obtain rfl := Option.some.inj found
    exact .inr ⟨⟨family, .append (isIdentPart_of_mem_decimal nonneg)⟩, rfl⟩
  · rintro v w name hv hw rfl same
    exact (Text.decimal_injective hw hv ((String.append_right_inj mark).1 same)).symm

theorem eq_or_of_ite {v k : ℤ} {fixed name : String} {rest : Option String}
    (h : (if v = k then some fixed else rest) = some name) :
    (name, v) = (fixed, k) ∨ rest = some name := by
  split at h
  · rename_i value
    rw [value, Option.some.inj h]
    exact .inl rfl
  · exact .inr h

/-- Locks, and items where no lock has a name. -/
theorem lock : Reversible 't' := by
  refine of_either "ITEM_" (fun v name => entry? itemNames v = some name) ?_ ?_
  · intro v name _ named
    rcases eq_or_of_ite named with fixed | named
    · exact .inl (fixed ▸ by decide)
    rcases eq_or_of_ite named with fixed | named
    · exact .inl (fixed ▸ by decide)
    rcases eq_or_of_ite named with fixed | named
    · exact .inl (fixed ▸ by decide)
    · exact .inr ⟨⟨by decide, isTable_items.carries_entry named⟩, named⟩
  · intro v w name _ _ named named'
    exact isTable_items.injective named named'

theorem procedure : Reversible 'p' := by
  refine of_either "main_" (fun v name => "main_" ++ Text.hex 2 v = name) ?_ ?_
  · intro v name nonneg named
    rcases eq_or_of_ite named with fixed | named
    · exact .inl (fixed ▸ by decide)
    rcases eq_or_of_ite named with fixed | named
    · exact .inl (fixed ▸ by decide)
    split at named
    · obtain rfl := Option.some.inj named
      exact .inr ⟨⟨by decide, .append (isIdentPart_of_mem_hex nonneg)⟩, rfl⟩
    · cases named
  · rintro v w name hv hw rfl same
    exact (Text.hex_injective hw hv ((String.append_right_inj "main_").1 same)).symm

theorem gosub : Reversible 'g' := by
  refine of_either "" (fun _ _ => False) ?_ ?_
  · intro v name _ named
    rcases eq_or_of_ite named with fixed | named
    · exact .inl (fixed ▸ by decide)
    · cases named
  · exact fun _ _ => False.elim

/-- A variable has a name of its own or is named by its number. -/
theorem variableName?_cases {v : ℤ} {name : String} (h : variableName? v = some name) :
    (∃ e ∈ namedVariables, (e.1 : ℤ) = v ∧ e.2 = name) ∨ "V_" ++ Text.hex 2 v = name := by
  unfold variableName? at h
  split at h
  · rename_i e found
    have value := List.find?_some found
    exact .inl ⟨e, List.mem_of_find?_eq_some found, of_decide_eq_true value, Option.some.inj h⟩
  · split at h
    · cases h
    · exact .inr (Option.some.inj h)

theorem namedVariables_sound :
    (∀ e ∈ namedVariables, ∀ f ∈ namedVariables, e.2 = f.2 → e.1 = f.1) ∧
      (∀ e ∈ namedVariables,
        "V_".toList.isPrefixOf e.2.toList = true ∧ e.2.toList.all isIdentPart = true) ∧
      ∀ e ∈ namedVariables, (e.2.toList.drop "V_".toList.length).any (fun c =>
        (List.range 16).all fun d => c != (Nat.digitChar d).toUpper) = true := by
  decide +kernel

/-- Variables, of which four have a name that is no number. -/
theorem ofVariable : Reversible 'v' := by
  have apart : ∀ e ∈ namedVariables, ∀ w : ℤ, 0 ≤ w → "V_" ++ Text.hex 2 w ≠ e.2 := by
    intro e he w nonneg same
    obtain ⟨c, hc, letter⟩ := List.any_eq_true.1 (namedVariables_sound.2.2 e he)
    rw [← same, String.toList_append, List.drop_left] at hc
    obtain ⟨d, small, digit⟩ := Text.mem_hex nonneg hc
    exact bne_iff_ne.1 (List.all_eq_true.1 letter d (List.mem_range.2 small)) digit
  refine of_either "V_" (fun v name => variableName? v = some name) ?_ ?_
  · intro v name nonneg named
    refine .inr ⟨⟨by decide, ?_⟩, named⟩
    rcases variableName?_cases named with ⟨e, he, -, rfl⟩ | rfl
    · exact carries_of_isPrefixOf (namedVariables_sound.2.1 e he).1 (namedVariables_sound.2.1 e he).2
    · exact .append (isIdentPart_of_mem_hex nonneg)
  · intro v w name hv hw named named'
    rcases variableName?_cases named with ⟨e, he, rfl, rfl⟩ | written <;>
      rcases variableName?_cases named' with ⟨f, hf, rfl, same⟩ | written'
    · rw [namedVariables_sound.1 e he f hf same.symm]
    · exact absurd written' (apart e he w hw)
    · exact absurd (written.trans same.symm) (apart f hf v hv)
    · exact Text.hex_injective hv hw ((String.append_right_inj "V_").1 (written.trans written'.symm))

end Reversible

/-- The characters of operands whose values have names. -/
def namedKinds : List Char :=
  ['0', '1', '2', '3', 'e', 't', 'T', 'c', 'o', 's', 'a', 'w', 'g', 'p', 'f', 'v']

theorem valueName?_of_notMem {kind : Char} (h : kind ∉ namedKinds) (v : ℤ) :
    valueName? kind v = none := by
  simp only [namedKinds, List.mem_cons, List.not_mem_nil, or_false, not_or] at h
  unfold valueName?
  split <;> simp_all

theorem reversible {kind : Char} (noMask : kind ≠ 'a') (noWord : kind ≠ 'T') :
    Reversible kind := by
  by_cases mem : kind ∈ namedKinds
  -- The cases stand in the order of `namedKinds`.
  · simp only [namedKinds, List.mem_cons, List.not_mem_nil, or_false] at mem
    rcases mem with rfl | rfl | rfl | rfl | rfl | rfl | rfl | rfl | rfl | rfl | rfl | rfl | rfl |
      rfl | rfl | rfl
    · exact .of_numbered "ID_AOT_" (by decide) fun _ => rfl
    · exact .of_numbered "ID_OBJ_" (by decide) fun _ => rfl
    · exact .of_numbered "ID_EM_" (by decide) fun _ => rfl
    · exact .of_numbered "ID_MSG_" (by decide) fun _ => rfl
    · exact .of_table isTable_enemies (by decide) fun _ => rfl
    · exact .lock
    · exact absurd rfl noWord
    · exact .of_table (isTable_written ("CMP_", comparators) (by decide)) (by decide) fun _ => rfl
    · exact .of_table (isTable_written ("OP_", operators) (by decide)) (by decide) fun _ => rfl
    · exact .of_table (isTable_written ("SCE_", sceneEvents) (by decide)) (by decide) fun _ => rfl
    · exact absurd rfl noMask
    · exact .of_table (isTable_written ("WK_", workKinds) (by decide)) (by decide) fun _ => rfl
    · exact .gosub
    · exact .procedure
    · exact .of_table (isTable_written ("FG_", flagGroups) (by decide)) (by decide) fun _ => rfl
    · exact .ofVariable
  · constructor
    · intro v name _ named
      rw [valueName?_of_notMem mem] at named
      cases named
    · intro v w name _ _ named
      rw [valueName?_of_notMem mem] at named
      cases named

theorem fixedSymbols_sound :
    (∀ f ∈ fixedSymbols, fixedSymbols.lookup f.1 = some f.2) ∧
      ∀ f ∈ fixedSymbols, f.1.toList.head?.any isIdentStart = true ∧
        f.1.toList.all isIdentPart = true := by
  decide +kernel

theorem isWord_symbolFamilies : ∀ f ∈ symbolFamilies,
    f.1.toList.head?.any isIdentStart = true ∧ f.1.toList.all isIdentPart = true := by
  decide +kernel

theorem isWord_of_head {chars : List Char} (first : chars.head?.any isIdentStart = true)
    (all : ∀ c ∈ chars, isIdentPart c = true) : IsWord isIdentStart chars := by
  cases chars with
  | nil => cases first
  | cons c cs => exact ⟨c, cs, rfl, first, fun d hd => all d (List.mem_cons_of_mem c hd)⟩

/-- A name with the mark of a family is a word. -/
theorem Carries.isWord {name : String} {family : String × Option Char}
    (mem : family ∈ symbolFamilies) (carries : Carries family.1 name) :
    IsWord isIdentStart name.toList := by
  obtain ⟨rest, chars, parts⟩ := carries
  obtain ⟨first, all⟩ := isWord_symbolFamilies family mem
  rw [chars]
  refine isWord_of_head ?_ (List.forall_mem_append.2 ⟨List.all_eq_true.1 all, parts⟩)
  cases mark : family.1.toList with
  | nil =>
    rw [mark] at first
    cases first
  | cons c cs => rwa [mark] at first

/-- A word that stands for a value. -/
structure IsSymbol (name : String) (v : ℤ) : Prop where
  word : IsWord isIdentStart name.toList
  value : symbolValue? name = some v

theorem isSymbol_of_mem {name : String} {v : ℤ} (fixed : (name, v) ∈ fixedSymbols) :
    IsSymbol name v := by
  obtain ⟨first, all⟩ := fixedSymbols_sound.2 _ fixed
  refine ⟨isWord_of_head first (List.all_eq_true.1 all), ?_⟩
  rw [symbolValue?, fixedSymbols_sound.1 _ fixed]

theorem lt_of_lockName? {v : ℤ} {name : String} (named : lockName? v = some name) : v < 256 := by
  unfold lockName? at named
  split at named
  · omega
  split at named
  · omega
  split at named
  · omega
  · obtain ⟨-, found, -⟩ := entry?_eq_some_iff.1 named
    have small := (List.getElem?_eq_some_iff.1 found).1
    have count : (items.map (displayName "ITEM_")).length = 100 := rfl
    omega

/-- **Names lead back to their values**: the name of an operand value that is no mask is a word
that stands for the value. -/
theorem isSymbol_of_valueName? {kind : Char} {v : ℤ} {name : String} (noMask : kind ≠ 'a')
    (nonneg : 0 ≤ v) (small : kind ≠ 'T' → v < 256) (named : valueName? kind v = some name) :
    IsSymbol name v := by
  -- Words of locks have the names of lock bytes.
  obtain ⟨kind', noMask', noWord, small', named'⟩ : ∃ kind' : Char, kind' ≠ 'a' ∧ kind' ≠ 'T' ∧
      v < 256 ∧ valueName? kind' v = some name := by
    by_cases word : kind = 'T'
    · subst word
      exact ⟨'t', by decide, by decide, lt_of_lockName? named, named⟩
    · exact ⟨kind, noMask, word, small word, named⟩
  have turn := reversible noMask' noWord
  rcases turn.lookedUp nonneg named' with fixed | ⟨mark, family, carries⟩
  · exact isSymbol_of_mem fixed
  · refine ⟨carries.isWord family, ?_⟩
    obtain ⟨rest, chars, -⟩ := carries
    have nat : ((v.toNat : ℕ) : ℤ) = v := Int.toNat_of_nonneg nonneg
    have found : namedValue? kind' name = some ((v.toNat : ℕ) : ℤ) := by
      refine namedValue?_eq (by omega) (by rwa [nat]) fun w found => ?_
      have := turn.injective (Int.natCast_nonneg w) nonneg found named'
      omega
    rw [nat] at found
    exact (symbolValue?_of_begins family ⟨rest, chars.symm⟩).trans found

/-- The name of a flag stands for its number. -/
theorem isSymbol_of_flagName? {group index : ℤ} {name : String}
    (named : flagName? group index = some name) : IsSymbol name index := by
  have sound : ∀ f ∈ flags, symbolValue? f.2 = some (f.1.2 : ℤ) ∧
      f.2.toList.head?.any isIdentStart = true ∧ f.2.toList.all isIdentPart = true := by
    decide +kernel
  obtain ⟨f, found, rfl⟩ := Option.map_eq_some_iff.1 named
  have value : (f.1.1 : ℤ) = group ∧ (f.1.2 : ℤ) = index := by simpa using List.find?_some found
  obtain ⟨back, first, all⟩ := sound f (List.mem_of_find?_eq_some found)
  exact ⟨isWord_of_head first (List.all_eq_true.1 all), by rw [back, value.2]⟩

/-! ## Operands named by their instruction -/

/-- A rule names an operand of one byte by that byte, and never as a mask. -/
theorem rules_sound : ∀ r ∈ rules,
    (((signature r.opcode).layout (size r.opcode))[r.index]?.all fun o =>
      o.offset == r.valueAt && o.width == 1) = true ∧
      r.meaning ≠ .value 'a' := by
  decide +kernel

theorem peekAt?_eq (block : List UInt8) (place : ℕ) :
    Cursor.peekAt? { data := block } place = block[place]? := by
  have nonneg : ¬(place : ℤ) < 0 := by omega
  simp [Cursor.peekAt?, Cursor.byteAt?, nonneg]

/-- The name of an operand by the bytes beside it stands for the operand's value. -/
theorem isSymbol_of_instructionName? {opcode : UInt8} {block : List UInt8} {index : ℕ} {o : Operand}
    {name : String} (placed : ((signature opcode).layout (size opcode))[index]? = some o)
    (named : instructionName? opcode index { data := block } = some name) :
    IsSymbol name (o.decode (o.slice block)) := by
  unfold instructionName? at named
  split at named
  · rename_i r tag found
    obtain ⟨r', mem, fits⟩ := List.exists_of_findSome?_eq_some found
    obtain ⟨tag', applies, same⟩ := Option.map_eq_some_iff.1 fits
    cases same
    obtain ⟨layout, noMask⟩ := rules_sound r mem
    obtain ⟨rfl, place⟩ : r.opcode = opcode ∧ (r.index : ℤ) = index := by
      unfold Rule.tag? at applies
      split at applies
      · assumption
      · cases applies
    rw [show r.index = index by omega, placed] at layout
    simp only [Option.all_some, Bool.and_eq_true, beq_iff_eq] at layout
    unfold Rule.name? at named
    rw [peekAt?_eq] at named
    cases byte : block[r.valueAt]? with
    | none =>
      rw [byte] at named
      cases named
    | some value =>
      have decoded : o.decode (o.slice block) = value.toNat := by
        simp [Operand.decode, Operand.slice, layout, List.getD_eq_getElem?_getD, byte]
      have small := value.toNat_lt
      rw [byte] at named
      rw [decoded]
      simp only at named
      split at named
      · exact isSymbol_of_flagName? named
      · rename_i kind meaning
        refine isSymbol_of_valueName? ?_ (by omega) (fun _ => by omega) named
        rintro rfl
        exact noMask meaning
  · cases named

/-! ## Masks and procedures -/

theorem bitNames_subset (names : List String) (n : ℕ) : bitNames names n ⊆ names := by
  induction names generalizing n with
  | nil => exact List.nil_subset _
  | cons name names ih =>
    rw [bitNames]
    split
    · exact List.cons_subset_cons _ (ih _)
    · exact List.Subset.trans (ih _) (List.subset_cons_self _ _)

/-- The words of actor masks with their bits. -/
def maskWords : List (String × ℤ) :=
  [("SAT_AUTO", 0), ("SAT_PL", 1), ("SAT_EM", 2), ("SAT_SPL", 4), ("SAT_OB", 8), ("SAT_MANUAL", 16),
    ("SAT_FRONT", 32), ("SAT_UNDER", 64)]

theorem isSymbol_of_mem_maskWords : ∀ e ∈ maskWords, IsSymbol e.1 e.2 := by
  have sound : ∀ e ∈ maskWords, symbolValue? e.1 = some e.2 ∧
      e.1.toList.head?.any isIdentStart = true ∧ e.1.toList.all isIdentPart = true := by
    decide +kernel
  intro e he
  obtain ⟨value, first, all⟩ := sound e he
  exact ⟨isWord_of_head first (List.all_eq_true.1 all), value⟩

theorem defaultName_main {n : ℤ} (numbered : 2 ≤ n) :
    Procedure.defaultName .main n = "main_" ++ Text.hex 2 n := by
  have first : n ≠ 0 := by omega
  have second : n ≠ 1 := by omega
  have other : Kind.main ≠ Kind.init := by decide
  have mark : Kind.main.name ++ "_" = "main_" := by decide
  simp only [Procedure.defaultName, first, second, other, and_false, if_false, mark]

/-- The name of a numbered main procedure stands for its number. -/
theorem eq_of_symbolValue?_numbered {n : ℕ} {v : ℤ}
    (h : symbolValue? ("main_" ++ Text.hex 2 n) = some v) : v = n := by
  have family : ("main_", some 'p') ∈ symbolFamilies := by decide
  have begins : "main_".toList <+: ("main_" ++ Text.hex 2 n).toList :=
    ⟨_, String.toList_append.symm⟩
  have notFixed : ∀ k, ("main_" ++ Text.hex 2 n, k) ∉ fixedSymbols :=
    notMem_fixedSymbols family begins
  rw [symbolValue?_of_begins family begins] at h
  obtain ⟨w, found, rfl⟩ := Option.map_eq_some_iff.1 h
  have named : valueName? 'p' w = some ("main_" ++ Text.hex 2 n) := by
    simpa using List.find?_some found
  rcases Reversible.eq_or_of_ite named with fixed | named
  · exact absurd (fixed ▸ by decide) (notFixed w)
  rcases Reversible.eq_or_of_ite named with fixed | named
  · exact absurd (fixed ▸ by decide) (notFixed w)
  split at named
  · have same := (String.append_right_inj "main_").1 (Option.some.inj named)
    exact Text.hex_injective (Int.natCast_nonneg w) (Int.natCast_nonneg n) same
  · cases named

/-- The default name of a main procedure stands for no other number than its index. -/
theorem eq_of_symbolValue?_defaultName {i : ℕ} {v : ℤ}
    (h : symbolValue? (Procedure.defaultName .main i) = some v) : v = i := by
  by_cases first : i = 0
  · have name : Procedure.defaultName .main (0 : ℕ) = "main" := by decide
    have fixed : symbolValue? "main" = some 0 := by decide +kernel
    rw [first, name, fixed, Option.some.injEq] at h
    rw [first]
    exact h.symm
  by_cases second : i = 1
  · have name : Procedure.defaultName .main (1 : ℕ) = "aot" := by decide
    have fixed : symbolValue? "aot" = some 1 := by decide +kernel
    rw [second, name, fixed, Option.some.injEq] at h
    rw [second]
    exact h.symm
  · rw [defaultName_main (by omega)] at h
    exact eq_of_symbolValue?_numbered h

end Opcode

end RoomScript
