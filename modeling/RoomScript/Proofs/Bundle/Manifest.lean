import RoomScript.Bundle
import RoomScript.Proofs.Archive
import RoomScript.Proofs.Json
import RoomScript.Proofs.Timestamp

/-!
# Manifests read back

A manifest is read as it was written, if its numbers have 64 bits, its texts are well-formed and its
time is one of a calendar and a clock.

* `Entry.Fits` and `Manifest.Fits` say so;
* `takes_field` reads a field on a line of its own, `takes_entry` and `takes_entriesText` the list
  of procedures, and `takes_time` the time;
* `parse?_text` reads the manifest, and `fits_manifest` says which manifests of scripts fit.
-/

namespace RoomScript.Bundle

open Json

/-! ## Fields -/

/-- The line break and the name in front of the value of a field. -/
def label (indent : String) (name : String) : List UInt8 :=
  utf8 indent.toList ++ (utf8 (quoted name).toList ++ [':'.toUInt8, ' '.toUInt8])

section Fields

variable {α : Type} {field : α → RawText → Json.Reader α} {a value : α} {bytes rest : List UInt8}

theorem dropSpace_label {indent : String} (blank : (utf8 indent.toList).all isSpace = true)
    (name : String) (rest : List UInt8) : (label indent name ++ rest).dropWhile isSpace =
      utf8 (quoted name).toList ++ ':'.toUInt8 :: ' '.toUInt8 :: rest := by
  rw [label, List.append_assoc, List.append_assoc, dropSpace_quoted (List.all_eq_true.1 blank)]
  rfl

/-- A field is read as its value is. -/
theorem takes_field {β : Type} {r : Json.Reader β} {read : β} {set : β → α} {indent name : String}
    (blank : (utf8 indent.toList).all isSpace = true)
    (reads : field a (RawText.ofString name) = r.map set)
    (takes : Takes r (' '.toUInt8 :: bytes) read rest) :
    Takes (Json.name.followed (field a)) (label indent name ++ bytes) (set read) rest := by
  refine (takes_name (dropSpace_label blank name bytes)).followed ?_
  rw [reads]
  exact takes.map set

end Fields

theorem isSpace_of_mem_blank : ∀ b ∈ [' '.toUInt8], isSpace b = true :=
  List.forall_mem_singleton.2 rfl

/-- The blank in front of a value is passed over. -/
theorem takes_blank_text (s : String) (rest : List UInt8) :
    Takes text (' '.toUInt8 :: (utf8 (quoted s).toList ++ rest)) (RawText.ofString s) rest := by
  have front := dropSpace_quoted isSpace_of_mem_blank s rest
  rw [List.singleton_append] at front
  exact takes_text front

theorem takes_blank_integer {n : ℤ} (bits : -2 ^ 63 ≤ n ∧ n < 2 ^ 63) (before : ℤ) {b : UInt8}
    (digit : isDigit b = false) (point : b ≠ '.'.toUInt8) (rest : List UInt8) :
    Takes (integer before) (' '.toUInt8 :: (utf8 (Text.decimal 0 n).toList ++ b :: rest)) n
      (b :: rest) := by
  have front := dropSpace_decimal isSpace_of_mem_blank n (b :: rest)
  rw [List.singleton_append] at front
  refine takes_integer bits.1 bits.2 before front ?_
  rintro b ⟨⟩
  exact ⟨digit, point⟩

section Objects

variable {α : Type} {field : α → RawText → Json.Reader α} {a value : α} {bytes rest : List UInt8}

/-- An object is read with its fields, the first of which has its name on the next line. -/
theorem takes_labelled {indent name : String} (blank : (utf8 indent.toList).all isSpace = true)
    {more : List UInt8}
    (brace : bytes.dropWhile isSpace = '\x7b'.toUInt8 :: (label indent name ++ more))
    (takes : Takes (fields field a) (label indent name ++ more) value rest) :
    Takes (object field a) bytes value rest := by
  have filled := dropSpace_label blank name more
  rw [utf8_quoted, List.cons_append] at filled
  exact takes_object brace filled takes

end Objects

theorem lowerName_ofString (s : String) :
    lowerName (RawText.ofString s) = String.ofList (s.toList.map Char.toLower) := by
  rw [lowerName, RawText.text_ofString]

/-! ## Entries -/

/-- The numbers of an entry have 64 bits, and its texts are well-formed. -/
structure Entry.Fits (e : Entry) : Prop where
  index : -2 ^ 63 ≤ e.index ∧ e.index < 2 ^ 63
  size : -2 ^ 63 ≤ e.size ∧ e.size < 2 ^ 63
  kind : RawText.ofString e.kind.text = e.kind
  file : RawText.ofString e.file.text = e.file

theorem utf8_entry (e : Entry) (rest : List UInt8) : utf8 e.text.toList ++ rest =
    utf8 "    ".toList ++ '\x7b'.toUInt8 ::
      (label "\n      " "kind" ++ (utf8 (quoted e.kind.text).toList ++ ','.toUInt8 ::
      (label "\n      " "index" ++ (utf8 (Text.decimal 0 e.index).toList ++ ','.toUInt8 ::
      (label "\n      " "name" ++ (utf8 (quoted e.name).toList ++ ','.toUInt8 ::
      (label "\n      " "file" ++ (utf8 (quoted e.file.text).toList ++ ','.toUInt8 ::
      (label "\n      " "size" ++ (utf8 (Text.decimal 0 e.size).toList ++ '\n'.toUInt8 ::
      (utf8 "    ".toList ++ '\x7d'.toUInt8 :: rest))))))))))) := by
  have kind : utf8 "    \x7b\n      \"kind\": ".toList =
      utf8 "    ".toList ++ '\x7b'.toUInt8 :: label "\n      " "kind" := by decide +kernel
  have index : utf8 ",\n      \"index\": ".toList = ','.toUInt8 :: label "\n      " "index" := by
    decide +kernel
  have name : utf8 ",\n      \"name\": ".toList = ','.toUInt8 :: label "\n      " "name" := by
    decide +kernel
  have file : utf8 ",\n      \"file\": ".toList = ','.toUInt8 :: label "\n      " "file" := by
    decide +kernel
  have size : utf8 ",\n      \"size\": ".toList = ','.toUInt8 :: label "\n      " "size" := by
    decide +kernel
  have close : utf8 "\n    \x7d".toList =
      '\n'.toUInt8 :: (utf8 "    ".toList ++ ['\x7d'.toUInt8]) := by decide +kernel
  unfold Entry.text
  simp only [String.toList_append, utf8_append, kind, index, name, file, size, close,
    List.append_assoc, List.cons_append, List.nil_append]

/-- Each field of an entry is read in its place. -/
theorem Entry.field_eq (e : Entry) :
    e.field (RawText.ofString "kind") = Json.text.map ({ e with kind := · }) ∧
      e.field (RawText.ofString "index") = (integer e.index).map ({ e with index := · }) ∧
      e.field (RawText.ofString "name") = Json.text.map ({ e with name := ·.text }) ∧
      e.field (RawText.ofString "file") = Json.text.map ({ e with file := · }) ∧
      e.field (RawText.ofString "size") = (integer e.size).map ({ e with size := · }) := by
  unfold Entry.field
  simp only [lowerName_ofString]
  exact ⟨rfl, rfl, rfl, rfl, rfl⟩

theorem takes_entry {e : Entry} (fits : e.Fits) {blanks : List UInt8}
    (blank : ∀ b ∈ blanks, isSpace b = true) (rest : List UInt8) :
    Takes (object Entry.field {}) (blanks ++ (utf8 e.text.toList ++ rest)) e rest := by
  have space : (utf8 "\n      ".toList).all isSpace = true := by decide
  have indent : ∀ b ∈ utf8 "    ".toList, isSpace b = true := List.all_eq_true.1 (by decide)
  rw [utf8_entry, ← List.append_assoc]
  refine takes_labelled space
    (dropSpace_append (List.forall_mem_append.2 ⟨blank, indent⟩) _ (by decide) _) ?_
  refine takes_fields_cons (takes_field space (Entry.field_eq _).1 (takes_blank_text _ _)) rfl ?_
  refine takes_fields_cons (takes_field space (Entry.field_eq _).2.1
    (takes_blank_integer fits.index _ rfl (by decide) _)) rfl ?_
  refine takes_fields_cons
    (takes_field space (Entry.field_eq _).2.2.1 (takes_blank_text _ _)) rfl ?_
  refine takes_fields_cons
    (takes_field space (Entry.field_eq _).2.2.2.1 (takes_blank_text _ _)) rfl ?_
  simp only [fits.kind, fits.file, RawText.text_ofString]
  have dedent : ∀ b ∈ '\n'.toUInt8 :: utf8 "    ".toList, isSpace b = true :=
    List.forall_mem_cons.2 ⟨by decide, indent⟩
  have close := dropSpace_append dedent '\x7d'.toUInt8 (by decide) rest
  exact takes_fields_last (takes_field space (Entry.field_eq { e with size := 0 }).2.2.2.2
    (takes_blank_integer fits.size _ rfl (by decide) _)) close

/-- The entries of a list are read one after another. -/
theorem takes_entries {e : Entry} {es : List Entry} (fits : ∀ x ∈ e :: es, x.Fits)
    (rest : List UInt8) :
    Takes (items (object Entry.field) {} []) ('\n'.toUInt8 ::
      (utf8 (",\n".intercalate ((e :: es).map Entry.text)).toList ++ '\n'.toUInt8 ::
        (utf8 "  ".toList ++ ']'.toUInt8 :: rest))) (e :: es) rest := by
  have line : ∀ b ∈ ['\n'.toUInt8], isSpace b = true := List.all_eq_true.1 (by decide)
  have indent : ∀ b ∈ '\n'.toUInt8 :: utf8 "  ".toList, isSpace b = true :=
    List.all_eq_true.1 (by decide)
  have comma : utf8 ",\n".toList = [','.toUInt8, '\n'.toUInt8] := by decide
  induction es generalizing e with
  | nil =>
    have first := takes_entry (fits e List.mem_cons_self) line ('\n'.toUInt8 ::
      (utf8 "  ".toList ++ ']'.toUInt8 :: rest))
    rw [List.singleton_append] at first
    rw [String.toList_intercalate, List.map_cons, List.map_cons, List.map_nil, List.map_nil,
      List.intercalate_singleton]
    exact takes_items_last first (dropSpace_append indent _ (by decide) rest)
  | cons e' es ih =>
    have later := ih (e := e') fun x mem => fits x (List.mem_cons_of_mem _ mem)
    have first := takes_entry (fits e List.mem_cons_self) line
    simp only [List.singleton_append] at first
    rw [String.toList_intercalate] at later ⊢
    rw [List.map_cons, List.map_cons] at later
    rw [List.map_cons, List.map_cons, List.map_cons, List.map_cons, List.intercalate_cons_cons,
      utf8_append, utf8_append, comma, List.append_assoc, List.append_assoc, List.cons_append,
      List.singleton_append]
    exact takes_items_cons (first _) rfl later

theorem exists_intercalate_eq_append (mark first : String) (texts : List String) :
    ∃ tail, (mark.intercalate (first :: texts)).toList = first.toList ++ tail := by
  rw [String.toList_intercalate]
  cases texts with
  | nil => exact ⟨[], by simp⟩
  | cons second texts => exact ⟨_, by rw [List.map_cons, List.map_cons, List.intercalate_cons_cons,
      List.append_assoc]⟩

/-- A list of entries is read as it was written. -/
theorem takes_entriesText {es : List Entry} (fits : ∀ e ∈ es, e.Fits) (rest : List UInt8) :
    Takes (list (object Entry.field) {} [])
      (' '.toUInt8 :: (utf8 (entriesText es).toList ++ rest)) es rest := by
  cases es with
  | nil => exact takes_list_null rfl
  | cons e es =>
    have opening : utf8 "[\n".toList = ['['.toUInt8, '\n'.toUInt8] := by decide
    have closing : utf8 "\n  ]".toList = '\n'.toUInt8 :: (utf8 "  ".toList ++ [']'.toUInt8]) := by
      decide
    have written : utf8 (entriesText (e :: es)).toList ++ rest = '['.toUInt8 :: '\n'.toUInt8 ::
        (utf8 (",\n".intercalate ((e :: es).map Entry.text)).toList ++ '\n'.toUInt8 ::
          (utf8 "  ".toList ++ ']'.toUInt8 :: rest)) := by
      unfold entriesText
      simp only [String.toList_append, utf8_append, opening, closing, List.append_assoc,
        List.cons_append, List.nil_append]
    have blank : ∀ b ∈ '\n'.toUInt8 :: utf8 "    ".toList, isSpace b = true :=
      List.all_eq_true.1 (by decide)
    have filled : ∃ more, ('\n'.toUInt8 ::
        (utf8 (",\n".intercalate ((e :: es).map Entry.text)).toList ++ '\n'.toUInt8 ::
          (utf8 "  ".toList ++ ']'.toUInt8 :: rest))).dropWhile isSpace = '\x7b'.toUInt8 :: more := by
      obtain ⟨tail, first⟩ := exists_intercalate_eq_append ",\n" e.text (es.map Entry.text)
      rw [List.map_cons, first, utf8_append, List.append_assoc, utf8_entry, ← List.cons_append]
      exact ⟨_, dropSpace_append blank _ (by decide) _⟩
    obtain ⟨more, filled⟩ := filled
    rw [written]
    exact takes_list rfl filled (by decide) (takes_entries fits rest)

/-! ## Times -/

/-- No character of a timestamp needs an escape. -/
theorem escape_of_isShown {c : Char} (shown : Timestamp.IsShown c) : escape c = [c] := by
  have digits : ∀ d < 10, escape (Nat.digitChar d) = [Nat.digitChar d] := by decide
  rcases shown with ⟨d, digit, rfl⟩ | mem
  · exact digits d digit
  · simp only [List.mem_cons, List.not_mem_nil, or_false] at mem
    rcases mem with rfl | rfl | rfl | rfl | rfl | rfl
    all_goals rfl

theorem toList_quoted_text (t : Timestamp) :
    (quoted t.text).toList = '"' :: (t.text.toList ++ ['"']) := by
  have plain : t.text.toList.flatMap escape = t.text.toList.flatMap fun c => [c] :=
    List.flatMap_congr fun c mem => escape_of_isShown (t.isShown_text c mem)
  rw [quoted, String.toList_ofList, plain, List.flatMap_singleton', List.cons_append]

theorem takes_time {t : Timestamp} (valid : t.Valid) (depth : ℕ) (before : Timestamp)
    (rest : List UInt8) : Takes (time depth before)
      (' '.toUInt8 :: (utf8 (quoted t.text).toList ++ rest)) t rest := by
  have front := dropSpace_quoted isSpace_of_mem_blank t.text rest
  rw [List.singleton_append] at front
  obtain ⟨x, read, bytes, after⟩ := takes_value depth front
  have chars : (Text.ofBytes x.value.toByteArray).toList = '"' :: (t.text.toList ++ ['"']) := by
    rw [bytes, ← toUTF8_eq, Text.ofBytes_toUTF8, toList_quoted_text]
  have last : (t.text.toList ++ ['"']).getLast? = some '"' := by simp
  have whole : Timestamp.parse? (String.ofList (t.text.toList ++ ['"']).dropLast) = some t := by
    rw [List.dropLast_concat, String.ofList_toList, Timestamp.parse?_text valid]
  unfold Takes time
  rw [read]
  dsimp only
  rw [chars]
  refine ⟨⟨t, x.rest, x.shorter⟩, ?_, rfl, after⟩
  show (if (t.text.toList ++ ['"']).getLast? = some '"' then
    Timestamp.parse? (String.ofList (t.text.toList ++ ['"']).dropLast) else none).map _ = _
  rw [if_pos last, whole]
  rfl

/-! ## Manifests -/

/-- A manifest holds numbers of 64 bits, well-formed texts and a time of a calendar and a clock. -/
structure Manifest.Fits (m : Manifest) : Prop where
  format : -2 ^ 63 ≤ m.format ∧ m.format < 2 ^ 63
  engine : RawText.ofString m.engine.text = m.engine
  created : m.created.Valid
  entries : ∀ e ∈ m.entries, e.Fits

/-- Each field of a manifest is read in its place. -/
theorem Reading.field_eq (m : Manifest) (places : List Entry) :
    let r : Reading := ⟨m, places⟩
    r.field (RawText.ofString "format") =
        (integer m.format).map ({ r with manifest := { m with format := · } }) ∧
      r.field (RawText.ofString "engine") =
        Json.text.map ({ r with manifest := { m with engine := · } }) ∧
      r.field (RawText.ofString "source") =
        Json.text.map ({ r with manifest := { m with source := ·.text } }) ∧
      r.field (RawText.ofString "created") =
        (time 1 m.created).map ({ r with manifest := { m with created := · } }) ∧
      r.field (RawText.ofString "procedures") =
        (list (object Entry.field) {} places).map r.withEntries := by
  unfold Reading.field
  simp only [lowerName_ofString]
  exact ⟨rfl, rfl, rfl, rfl, rfl⟩

/-- The source of a manifest, if it has one. -/
def sourceField (source : String) : List UInt8 :=
  if source = "" then []
  else ','.toUInt8 :: (label "\n  " "source" ++ utf8 (quoted source).toList)

theorem utf8_manifest (m : Manifest) : utf8 m.text.toList =
    '\x7b'.toUInt8 ::
      (label "\n  " "format" ++ (utf8 (Text.decimal 0 m.format).toList ++ ','.toUInt8 ::
      (label "\n  " "engine" ++ (utf8 (quoted m.engine.text).toList ++
      (sourceField m.source ++ ','.toUInt8 ::
      (label "\n  " "created" ++ (utf8 (quoted m.created.text).toList ++ ','.toUInt8 ::
      (label "\n  " "procedures" ++ (utf8 (entriesText m.entries).toList ++
      ['\n'.toUInt8, '\x7d'.toUInt8]))))))))) := by
  have format : utf8 "\x7b\n  \"format\": ".toList = '\x7b'.toUInt8 :: label "\n  " "format" := by
    decide +kernel
  have engine : utf8 ",\n  \"engine\": ".toList = ','.toUInt8 :: label "\n  " "engine" := by
    decide +kernel
  have source : utf8 (if m.source == "" then "" else ",\n  \"source\": " ++ quoted m.source).toList =
      sourceField m.source := by
    have named : utf8 ",\n  \"source\": ".toList = ','.toUInt8 :: label "\n  " "source" := by
      decide +kernel
    unfold sourceField
    by_cases none : m.source = ""
    · rw [if_pos (by simpa using none), if_pos none]
      rfl
    · rw [if_neg (by simpa using none), if_neg none, String.toList_append, utf8_append, named,
        List.cons_append]
  have created : utf8 ",\n  \"created\": ".toList = ','.toUInt8 :: label "\n  " "created" := by
    decide +kernel
  have procedures : utf8 ",\n  \"procedures\": ".toList =
      ','.toUInt8 :: label "\n  " "procedures" := by decide +kernel
  have close : utf8 "\n\x7d".toList = ['\n'.toUInt8, '\x7d'.toUInt8] := by decide
  unfold Manifest.text
  simp only [String.toList_append, utf8_append, format, engine, source, created, procedures, close,
    List.append_assoc, List.cons_append]

/-- A manifest is read with its entries, in the place of a manifest that has none. -/
theorem takes_manifest {m : Manifest} (fits : m.Fits) :
    Takes (object Reading.field {}) (utf8 m.text.toList)
      (Reading.withEntries ⟨{ m with entries := [] }, []⟩ m.entries) [] := by
  have space : (utf8 "\n  ".toList).all isSpace = true := by decide
  -- The fields behind the source are read in the same way with and without it.
  have later : Takes (fields Reading.field
      ⟨{ format := m.format, engine := m.engine, source := m.source }, []⟩)
      (label "\n  " "created" ++ (utf8 (quoted m.created.text).toList ++ ','.toUInt8 ::
        (label "\n  " "procedures" ++ (utf8 (entriesText m.entries).toList ++
          ['\n'.toUInt8, '\x7d'.toUInt8]))))
      (Reading.withEntries ⟨{ m with entries := [] }, []⟩ m.entries) [] := by
    have created := fun rest => takes_field space (Reading.field_eq
      { format := m.format, engine := m.engine, source := m.source } []).2.2.2.1
      (takes_time fits.created 1 {} rest)
    have entries := takes_field space (Reading.field_eq { m with entries := [] } []).2.2.2.2
      (takes_entriesText fits.entries ['\n'.toUInt8, '\x7d'.toUInt8])
    exact takes_fields_cons (created _) rfl (takes_fields_last entries rfl)
  have engine : ∀ rest, Takes (name.followed (Reading.field ⟨{ format := m.format }, []⟩))
      (label "\n  " "engine" ++ (utf8 (quoted m.engine.text).toList ++ rest))
      ⟨{ format := m.format, engine := m.engine }, []⟩ rest := by
    intro rest
    have value := takes_field space (Reading.field_eq { format := m.format } []).2.1
      (takes_blank_text m.engine.text rest)
    rwa [fits.engine] at value
  rw [utf8_manifest]
  refine takes_labelled space rfl ?_
  refine takes_fields_cons (takes_field space (Reading.field_eq _ _).1
    (takes_blank_integer fits.format _ rfl (by decide) _)) rfl ?_
  unfold sourceField
  by_cases none : m.source = ""
  · rw [if_pos none, List.nil_append]
    rw [none] at later
    refine takes_fields_cons (engine _) rfl ?_
    rw [none]
    exact later
  · rw [if_neg none, List.cons_append, List.append_assoc]
    refine takes_fields_cons (engine _) rfl (takes_fields_cons
      (takes_field space (Reading.field_eq _ _).2.2.1 (takes_blank_text m.source _)) rfl ?_)
    rw [RawText.text_ofString]
    exact later

/-- What the manifest of a script holds fits, if the indices of the procedures have 64 bits. -/
theorem fits_manifest {s : Script} {source : String} {created : Timestamp} (valid : created.Valid)
    (indices : ∀ p ∈ s.procedures, -2 ^ 63 ≤ p.index ∧ p.index < 2 ^ 63)
    (sizes : ∀ p ∈ s.procedures, p.data.length < 2 ^ 63) : (manifest s source created).Fits where
  format := by
    have number : (manifest s source created).format = 1 := rfl
    rw [number]
    decide
  engine := congrArg RawText.ofString (RawText.text_ofString _)
  created := valid
  entries := by
    intro e mem
    obtain ⟨p, here, rfl⟩ := List.mem_map.1 mem
    have size := sizes p here
    exact ⟨indices p here, ⟨by dsimp only; omega, by dsimp only; omega⟩,
      congrArg RawText.ofString (RawText.text_ofString _),
      congrArg RawText.ofString (RawText.text_ofString _)⟩

/-- **A manifest is read as it was written.** -/
theorem parse?_text {m : Manifest} (fits : m.Fits) :
    Manifest.parse? m.text.toUTF8.toList = some m := by
  have bytes : m.text.toUTF8.toList = utf8 m.text.toList := by
    rw [toUTF8_eq, Archive.toList_toByteArray]
  have whole := whole?_of_takes (takes_manifest fits) (List.forall_mem_nil _)
  rw [Manifest.parse?, bytes, whole]
  rfl

end RoomScript.Bundle
