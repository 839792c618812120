import RoomScript.Proofs.Assembly.Places
import RoomScript.Proofs.Opcode.Table

/-!
# Texts that read as lines

A phrase is a piece of text within a line that can be told from whatever follows it.  Phrases are
put together to lines, and lines to texts; the assembler sees such a text as its lines.

* `Phrase.word`, `Phrase.dotted`, `Phrase.number` and `Phrase.between` make phrases;
* `Reads.row` makes a line of a phrase, `Reads.append` joins texts;
* `assembleFile_of_reads` assembles the lines of a text.
-/

namespace RoomScript

/-- A piece of text that says tokens, whatever follows that does not continue a name.  It has no
blank in front. -/
structure Phrase (text : List Char) (tokens : List Token) : Prop where
  meaning : ∀ rest, headIs isIdentPart rest = false → Says (text ++ rest) tokens rest
  solid : ∀ rest, headIs isLineBlank (text ++ rest) = false
  plain : ∀ t ∈ tokens, t.kind ≠ .newline ∧ t.kind ≠ .directive

/-- A name character is no blank. -/
theorem isLineBlank_of_isIdentPart {c : Char} (h : isIdentPart c = true) :
    isLineBlank c = false := by
  have plain := notMem_marks_of_isIdentPart h
  simp only [marks, List.mem_cons, List.not_mem_nil, or_false, not_or] at plain
  simp [isLineBlank, plain]

namespace Phrase

variable {text text' : List Char} {ts us : List Token}

/-- One token that is no layout. -/
theorem single {c : Char} {cs : List Char} {t : Token}
    (spelled : ∀ rest, headIs isIdentPart rest = false → Spells (c :: cs ++ rest) [t] rest)
    (solid : isLineBlank c = false) (shown : t.isLayout = false) (noNewline : t.kind ≠ .newline)
    (noDirective : t.kind ≠ .directive) : Phrase (c :: cs) [t] where
  meaning rest stops := .of_spells (spelled rest stops) shown
  solid _ := solid
  plain := by
    rintro t ht
    rw [List.mem_singleton.1 ht]
    exact ⟨noNewline, noDirective⟩

theorem word (h : IsWord isIdentStart text) : Phrase text [.ofChars .symbol text] := by
  obtain ⟨c, cs, rfl, start, all⟩ := h
  have part : isIdentPart c = true := by rw [isIdentPart, start, Bool.true_or]
  exact single (fun rest stops => .symbol start all stops) (isLineBlank_of_isIdentPart part)
    rfl (by simp) (by simp)

theorem dotted (h : IsWord isIdentStart text) :
    Phrase ('.' :: text) [.ofChars .symbol ('.' :: text)] := by
  obtain ⟨c, cs, rfl, start, all⟩ := h
  exact single (fun rest stops => .dotted start all stops) rfl rfl (by simp) (by simp)

theorem number {c : Char} {cs : List Char} (digit : ('0' ≤ c && c ≤ '9') = true)
    (all : ∀ d ∈ cs, isIdentPart d = true) : Phrase (c :: cs) [.ofChars .number (c :: cs)] := by
  have part : isIdentPart c = true := by rw [isIdentPart, digit, Bool.or_true]
  exact single (fun rest stops => .number digit all stops) (isLineBlank_of_isIdentPart part)
    rfl (by simp) (by simp)

/-- A minus sign in front. -/
theorem minus (h : Phrase text ts) : Phrase ('-' :: text) (.ofChars .punct ['-'] :: ts) where
  meaning rest stops :=
    (Says.of_spells (.punctuation (by decide) (by decide) (text ++ rest)) rfl).append
      (h.meaning rest stops)
  solid _ := rfl
  plain := List.forall_mem_cons.2 ⟨by decide, h.plain⟩

/-- Two phrases with something between them that ends with a blank. -/
theorem between {gap : List Char} {mid : List Token} (first : Phrase text ts)
    (second : Phrase text' us) (stops : ∀ rest, headIs isIdentPart (gap ++ rest) = false)
    (meaning : ∀ rest, headIs isLineBlank rest = false → Says (gap ++ rest) mid rest)
    (plain : ∀ t ∈ mid, t.kind ≠ .newline ∧ t.kind ≠ .directive) :
    Phrase (text ++ (gap ++ text')) (ts ++ (mid ++ us)) where
  meaning rest ends := by
    rw [List.append_assoc, List.append_assoc]
    exact (first.meaning _ (stops _)).append
      ((meaning _ (second.solid rest)).append (second.meaning rest ends))
  solid rest := by
    rw [List.append_assoc]
    exact first.solid _
  plain := List.forall_mem_append.2
    ⟨first.plain, List.forall_mem_append.2 ⟨plain, second.plain⟩⟩

theorem spaced (first : Phrase text ts) (second : Phrase text' us) :
    Phrase (text ++ (" ".toList ++ text')) (ts ++ us) := by
  show Phrase (text ++ (" ".toList ++ text')) (ts ++ ([] ++ us))
  exact first.between second (fun _ => rfl) (fun _ solid => .blank solid) (by simp)

theorem comma (first : Phrase text ts) (second : Phrase text' us) :
    Phrase (text ++ (", ".toList ++ text')) (ts ++ ([.ofChars .comma [',']] ++ us)) := by
  refine first.between second (fun _ => rfl) (fun rest solid => ?_) (by decide)
  exact (Says.of_spells (.punctuation (by decide) (by decide) (' ' :: rest)) rfl).append
    (.blank solid)

theorem bar (first : Phrase text ts) (second : Phrase text' us) :
    Phrase (text ++ (" | ".toList ++ text')) (ts ++ ([.ofChars .punct ['|']] ++ us)) := by
  refine first.between second (fun _ => rfl) (fun rest solid => ?_) (by decide)
  have opened : Says (" ".toList ++ '|' :: ' ' :: rest) [] ('|' :: ' ' :: rest) := .blank rfl
  refine opened.append ?_
  exact (Says.of_spells (.punctuation (by decide) (by decide) (' ' :: rest)) rfl).append
    (.blank solid)

end Phrase

/-- What may stand between the last phrase of a line and its end. -/
structure EndsLine (ending : List Char) : Prop where
  stops : ∀ rest, headIs isIdentPart (ending ++ '\n' :: rest) = false
  meaning : ∀ rest, Says (ending ++ '\n' :: rest) [] ('\n' :: rest)

namespace EndsLine

theorem nil : EndsLine [] where
  stops _ := rfl
  meaning rest := .nil ('\n' :: rest)

theorem comment {text : List Char} (within : ∀ c ∈ text, c ≠ '\n') :
    EndsLine (" ;".toList ++ text) where
  stops _ := rfl
  meaning rest := by
    have opened : Says (" ".toList ++ (';' :: text ++ '\n' :: rest)) []
        (';' :: text ++ '\n' :: rest) := .blank rfl
    exact opened.append (.of_layout (.comment within) rfl)

end EndsLine

namespace Says

theorem shown {text rest : List Char} {ts : List Token} (h : Says text ts rest) :
    ∀ t ∈ ts, t.isLayout = false ∧ t.kind ≠ .eof := by
  obtain ⟨us, spelled, rfl⟩ := h
  intro t ht
  obtain ⟨mem, shown⟩ := List.mem_filter.1 ht
  exact ⟨by simpa using shown, spelled.kind_ne_eof t mem⟩

end Says

namespace Assembly

/-- The token at the end of a line. -/
def newline : Token := .ofChars .newline ['\n']

/-- A text of whole lines, whatever follows it. -/
def Reads (text : List Char) (lines : List Line) : Prop :=
  ∃ rows : List (List Token),
    (∀ rest, Says (text ++ rest) (rows.flatMap (· ++ [newline])) rest) ∧
      (∀ row ∈ rows, ∀ t ∈ row, t.kind ≠ .newline ∧ t.kind ≠ .directive) ∧
      rows.filterMap Line.ofTokens? = lines

namespace Reads

theorem nil : Reads [] [] :=
  ⟨[], fun rest => .nil rest, by simp, rfl⟩

theorem append {text text' : List Char} {lines lines' : List Line} (first : Reads text lines)
    (second : Reads text' lines') : Reads (text ++ text') (lines ++ lines') := by
  obtain ⟨rows, meaning, plain, rfl⟩ := first
  obtain ⟨rows', meaning', plain', rfl⟩ := second
  refine ⟨rows ++ rows', fun rest => ?_, List.forall_mem_append.2 ⟨plain, plain'⟩,
    List.filterMap_append⟩
  rw [List.append_assoc, List.flatMap_append]
  exact (meaning (text' ++ rest)).append (meaning' rest)

/-- An empty line is no line. -/
theorem empty : Reads "\n".toList [] := by
  refine ⟨[[]], fun rest => ?_, by simp, rfl⟩
  exact Says.of_spells (.newline rest) rfl

/-- A line with a phrase on it. -/
theorem row {margin text ending : List Char} {ts : List Token}
    (blank : ∀ c ∈ margin, isLineBlank c = true) (phrase : Phrase text ts)
    (ended : EndsLine ending) :
    Reads (margin ++ (text ++ (ending ++ "\n".toList))) (Line.ofTokens? ts).toList := by
  refine ⟨[ts], fun rest => ?_, by simpa using phrase.plain, ?_⟩
  · have opened := Says.blanks blank (phrase.solid (ending ++ '\n' :: rest))
    have line := opened.append ((phrase.meaning _ (ended.stops rest)).append
      ((ended.meaning rest).append (.of_spells (.newline rest) rfl)))
    simpa [newline] using line
  · cases found : Line.ofTokens? ts <;> simp [found]

end Reads

/-! ## Assembling lines -/

theorem splitOnP_rows {rows : List (List Token)}
    (plain : ∀ row ∈ rows, ∀ t ∈ row, t.kind ≠ .newline) :
    (rows.flatMap (· ++ [newline])).splitOnP (·.kind == .newline) = rows ++ [[]] := by
  induction rows with
  | nil => rfl
  | cons row rows ih =>
    obtain ⟨here, later⟩ := List.forall_mem_cons.1 plain
    have apart : ∀ t ∈ row, (t.kind == .newline) = false := by simpa using here
    rw [List.flatMap_cons, List.append_assoc, List.singleton_append,
      List.splitOnP_append_cons_of_forall_mem apart newline rfl, ih later]
    rfl

/-- The script that lines stand for. -/
def scriptOf (lines : List Line) : Script :=
  (Block.ofLines lines).foldl (Block.addTo ((Declarations.ofLines lines).ofKind .main))
    { version := .bio2 }

/-- Nothing is reported on lines. -/
structure Faultless (lines : List Line) : Prop where
  declared : (Declarations.ofLines lines).diagnostics = #[]
  encoded : ∀ l ∈ lines, (l.encode ((Declarations.ofLines lines).ofKind .main)).2 = []

/-- A file that reads as lines is assembled from them. -/
theorem assembleFile_of_reads {lib : Library} {path text : String} {lines : List Line}
    (read : lib.read path = .ok text.toUTF8) (reads : Reads text.toList lines) :
    (assembleFile lib path []).script = scriptOf lines ∧
      ((assembleFile lib path []).diagnostics = [] ↔ Faultless lines) := by
  obtain ⟨rows, meaning, plain, rfl⟩ := reads
  have said : Says text.toList (rows.flatMap (· ++ [newline])) [] := by simpa using meaning []
  have noDirective : ∀ t ∈ rows.flatMap (· ++ [newline]), t.kind ≠ .directive := by
    intro t ht
    obtain ⟨row, hrow, ht⟩ := List.mem_flatMap.1 ht
    rcases List.mem_append.1 ht with ht | ht
    · exact (plain row hrow t ht).2
    · rw [List.mem_singleton.1 ht]
      decide
  have lines : Line.ofText (rows.flatMap (· ++ [newline])) = rows.filterMap Line.ofTokens? := by
    -- The rows have neither layout nor an end token, so nothing of them is left out.
    have whole : (rows.flatMap (· ++ [newline])).takeWhile (·.kind != .eof) =
        rows.flatMap (· ++ [newline]) :=
      List.takeWhile_eq_self_iff.2 fun t ht => by simpa using (said.shown t ht).2
    have shown : (rows.flatMap (· ++ [newline])).filter (! ·.isLayout) =
        rows.flatMap (· ++ [newline]) :=
      List.filter_eq_self.2 fun t ht => by simpa using (said.shown t ht).1
    rw [Line.ofText, whole, shown, splitOnP_rows fun row hrow t ht => (plain row hrow t ht).1,
      List.filterMap_append]
    simp [Line.ofTokens?]
  obtain ⟨script, diagnostics⟩ := assembleFile_plain read said noDirective
  rw [script, diagnostics]
  unfold assemble
  simp only [lines]
  refine ⟨rfl, ?_⟩
  rw [List.nil_append, List.append_eq_nil_iff, List.flatMap_eq_nil_iff, Array.toList_eq_nil_iff]
  exact ⟨fun h => ⟨h.1, h.2⟩, fun h => ⟨h.declared, h.encoded⟩⟩

end Assembly

end RoomScript
