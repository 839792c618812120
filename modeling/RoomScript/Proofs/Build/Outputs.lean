import RoomScript.Build
import RoomScript.Proofs.Assembly.Passes
import RoomScript.Proofs.Bundle.Returning
import RoomScript.Proofs.FileTree.Writing

/-!
# What a source is built to

The files for a script are known from the script before any of them is written.

* `Build.outputs` lists them, and `Build.write_eq_writeAll` says that they are written in turn;
* `Build.eq_of_mem_outputs` says that no two of them are one file;
* `Build.outputName_eq_of_sameFile` says that sources with different names have different outputs;
* `Build.IsOwn` says what is to stand in them, with `Bundle.decode_encode_assembled` for bundles.
-/

namespace RoomScript

/-! ## Names of files -/

namespace Path

/-- No mark is so long. -/
theorem isPlain_of_length {s : String} (long : 2 < s.length) : IsPlain s := by
  refine ⟨?_, ?_, ?_⟩ <;> rintro rfl <;> revert long <;> decide

/-- A text behind a path is put behind its last segment. -/
theorem pieces_append {a b last : String} {front : List String} (split : pieces a = front ++ [last])
    (slashless : Slashless b) : pieces (a ++ b) = front ++ [last ++ b] := by
  have each : ∀ s ∈ front ++ [last], Slashless s := fun s mem =>
    slashless_of_mem_pieces (split ▸ mem)
  obtain ⟨front_slashless, last_slashless⟩ := List.forall_mem_append.1 each
  have whole : Slashless (last ++ b) := by
    have none := last_slashless last (List.mem_singleton_self last)
    simpa [Slashless] using And.intro none slashless
  by_cases alone : front = []
  · subst alone
    have same : a = last := by
      rw [← intercalate_pieces a, split]
      simp
    rw [same, pieces_of_slashless whole, List.nil_append]
  · have same : a = "/".intercalate front ++ "/" ++ last := by
      refine pieces_injective ?_
      rw [pieces_slash, pieces_intercalate alone front_slashless,
        pieces_of_slashless (last_slashless last (List.mem_singleton_self last)), split]
    rw [same, String.append_assoc, pieces_slash, pieces_intercalate alone front_slashless,
      pieces_of_slashless whole]

/-- The last segment of the name that an input gives to its outputs. -/
def outputName (input : String) : String :=
  (pieces (stem (base input))).getLast (pieces_ne_nil _)

/-- The path of an output ends with the name and the extension, when these are no mark together. -/
theorem exists_pieces_output_of_plain {input newExtension : String} (directory : String)
    (slashless : Slashless newExtension) (some : newExtension ≠ "")
    (plain : IsPlain (outputName input ++ newExtension)) :
    ∃ front, pieces (output input directory newExtension) =
      front ++ [outputName input ++ newExtension] := by
  have named : stem (base input) ++ newExtension ≠ "" := fun empty =>
    some (String.append_eq_empty_iff.1 empty).2
  have name := pieces_append (a := stem (base input))
    (List.dropLast_append_getLast (pieces_ne_nil _)).symm slashless
  have placed : (if directory == "" then dir input else directory) ≠ "" := by
    split
    · rw [dir, clean_eq_render]
      exact render_ne_empty (reduced_reducedSegments _)
    · rename_i some
      simpa using some
  have joined : output input directory newExtension =
      clean ((if directory == "" then dir input else directory) ++ "/" ++
        (stem (base input) ++ newExtension)) := by
    simp only [output, join, List.filter_cons, bne_iff_ne, ne_eq, placed, named, not_false_eq_true,
      if_true, List.filter_nil, String.intercalate_cons_cons, String.intercalate_singleton]
  -- Cleaning keeps an ordinary last segment.
  have last : ∃ segments, reducedSegments ((if directory == "" then dir input else directory) ++
      "/" ++ (stem (base input) ++ newExtension)) =
        segments ++ [outputName input ++ newExtension] := by
    rw [reducedSegments, pieces_slash, name, ← List.append_assoc, List.foldl_concat]
    exact ⟨_, by rw [← outputName, pushSegment_plain plain, List.reverse_cons]⟩
  obtain ⟨segments, reduced⟩ := last
  have slashless : ∀ s ∈ segments ++ [outputName input ++ newExtension], Slashless s :=
    fun s mem => slashless_of_mem_reducedSegments (reduced ▸ mem)
  obtain ⟨blanks, -, split⟩ := exists_pieces_render _ slashless
  exact ⟨blanks ++ segments, by rw [joined, clean_eq_render, reduced, split, List.append_assoc]⟩

theorem exists_pieces_output (input directory : String) {newExtension : String}
    (slashless : Slashless newExtension) (long : 2 < newExtension.length) :
    ∃ front, pieces (output input directory newExtension) =
      front ++ [outputName input ++ newExtension] := by
  refine exists_pieces_output_of_plain directory slashless ?_
    (isPlain_of_length (by rw [String.length_append]; omega))
  rintro rfl
  cases long

/-- Outputs that are one file agree in the name and the extension together. -/
theorem outputName_append_eq {t : FileTree} {input input' directory directory' x y : String}
    (slashless : Slashless x) (slashless' : Slashless y) (long : 2 < x.length) (long' : 2 < y.length)
    (same : t.SameFile (output input directory x) (output input' directory' y)) :
    outputName input ++ x = outputName input' ++ y := by
  obtain ⟨front, split⟩ := exists_pieces_output input directory slashless long
  obtain ⟨front', split'⟩ := exists_pieces_output input' directory' slashless' long'
  exact same.getLast?_pieces split split'
    (isPlain_of_length (by rw [String.length_append]; omega))
    (isPlain_of_length (by rw [String.length_append]; omega))

end Path

namespace Build

variable {o : Options} {source source' : String} {script script' : Script} {now : Timestamp}

/-- The extensions of outputs in one format. -/
def Format.extensions : Format → List String
  | .bundle => [Bundle.extension]
  | .chunk => Kind.named.map fun kind => "." ++ kind.name ++ ".scd"

theorem Format.slashless_of_mem_extensions {f : Format} {x : String} (mem : x ∈ f.extensions) :
    Path.Slashless x ∧ 2 < x.length := by
  have each : ∀ f : Format, ∀ x ∈ f.extensions, '/' ∉ x.toList ∧ 2 < x.length := by
    intro f
    cases f <;> decide
  exact each f x mem

/-- Files for sections of different kinds are different files. -/
theorem Options.eq_of_sameFile {t : FileTree} {kind kind' : Kind} (named : kind ∈ Kind.named)
    (named' : kind' ∈ Kind.named)
    (same : t.SameFile (o.sectionPath source kind) (o.sectionPath source kind')) :
    kind = kind' := by
  -- Both paths are made in the same way.
  obtain ⟨input, directory, path⟩ : ∃ input directory, ∀ k,
      o.sectionPath source k = Path.output input directory ("." ++ k.name ++ ".scd") := by
    by_cases own : o.output = ""
    · exact ⟨source, o.outputDir, fun k => if_pos own⟩
    · exact ⟨o.output, "", fun k => if_neg own⟩
  have listed : ∀ k ∈ Kind.named, "." ++ k.name ++ ".scd" ∈ Format.chunk.extensions := fun _ mem =>
    List.mem_map_of_mem mem
  obtain ⟨slashless, long⟩ := Format.slashless_of_mem_extensions (listed kind named)
  obtain ⟨slashless', long'⟩ := Format.slashless_of_mem_extensions (listed kind' named')
  rw [path, path] at same
  have last := Path.outputName_append_eq slashless slashless' long long' same
  have apart : ∀ k ∈ Kind.named, ∀ k' ∈ Kind.named,
      "." ++ k.name ++ ".scd" = "." ++ k'.name ++ ".scd" → k = k' := by decide
  exact apart kind named kind' named' ((String.append_right_inj _).1 last)

/-! ## The files for a script -/

/-- A file to be written, or why there is none. -/
abbrev Output := Except Error (String × ByteArray)

/-- The file for a section. -/
def sectionOutput (o : Options) (source : String) (part : Kind × List (List UInt8)) : Output :=
  match Chunk.join part.2 with
  | .error e => .error (.joining source part.1 e)
  | .ok chunk => .ok (o.sectionPath source part.1, chunk.toByteArray)

/-- The files for a script in the order in which they are written. -/
def outputs (o : Options) (source : String) (script : Script) (now : Timestamp) : List Output :=
  match o.format with
  | .bundle => [.ok (o.bundlePath source, Bundle.encode script (Path.base source) now)]
  | .chunk => (sections script).map (sectionOutput o source)

/-- Write files one after another, up to the first that cannot be made or written; `files` are those
written before. -/
def writeAll (files : List String) (s : Session) :
    List Output → Except Error (List String) × Session
  | [] => (.ok files, s)
  | .error e :: _ => (.error e, s)
  | .ok (path, data) :: rest =>
    match s.writeFile path data with
    | .error e => (.error (.writing e), s)
    | .ok s => writeAll (files ++ [path]) s rest

theorem writeSections_eq_writeAll (o : Options) (source : String) (files : List String)
    (s : Session) (parts : List (Kind × List (List UInt8))) :
    writeSections o source files s parts =
      writeAll files s (parts.map (sectionOutput o source)) := by
  induction parts generalizing files s with
  | nil => rfl
  | cons part parts ih =>
    obtain ⟨kind, bodies⟩ := part
    rw [writeSections, List.map_cons, sectionOutput]
    cases Chunk.join bodies with
    | error e => rfl
    | ok chunk =>
      simp only [writeAll]
      cases s.writeFile (o.sectionPath source kind) chunk.toByteArray with
      | error e => rfl
      | ok s => exact ih _ _

/-- The outputs of a script are written in turn. -/
theorem write_eq_writeAll (o : Options) (source : String) (script : Script) (s : Session) :
    write o source script s = writeAll [] s (outputs o source script s.now) := by
  unfold write outputs
  cases o.format with
  | bundle =>
    simp only [writeAll]
    cases s.writeFile (o.bundlePath source) (Bundle.encode script (Path.base source) s.now) <;> rfl
  | chunk => exact writeSections_eq_writeAll o source [] s _

/-- The sections are those of the named kinds. -/
theorem mem_sections {kind : Kind} {bodies : List (List UInt8)}
    (mem : (kind, bodies) ∈ sections script) :
    kind ∈ Kind.named ∧ bodies = (script.ofKind kind).map (·.data) := by
  obtain ⟨listed, -⟩ := List.mem_filter.1 mem
  obtain ⟨k, named, same⟩ := List.mem_map.1 listed
  cases same
  exact ⟨named, rfl⟩

/-- What is made of a script: its bundle, or the joined chunk of one of its sections. -/
theorem mem_outputs_iff {path : String} {data : ByteArray} :
    .ok (path, data) ∈ outputs o source script now ↔
      (o.format = .bundle ∧ path = o.bundlePath source ∧
        data = Bundle.encode script (Path.base source) now) ∨
      (o.format = .chunk ∧ ∃ kind bodies chunk, (kind, bodies) ∈ sections script ∧
        Chunk.join bodies = .ok chunk ∧ path = o.sectionPath source kind ∧
        data = chunk.toByteArray) := by
  unfold outputs
  cases o.format with
  | bundle => simp
  | chunk =>
    simp only [List.mem_map, reduceCtorEq, false_and, true_and, false_or]
    constructor
    · rintro ⟨⟨kind, bodies⟩, mem, made⟩
      unfold sectionOutput at made
      split at made
      · cases made
      · rename_i chunk joined
        cases made
        exact ⟨kind, bodies, chunk, mem, joined, rfl, rfl⟩
    · rintro ⟨kind, bodies, chunk, mem, joined, rfl, rfl⟩
      exact ⟨(kind, bodies), mem, by simp only [sectionOutput, joined]⟩

/-- Different outputs of a script are different files. -/
theorem eq_of_mem_outputs {t : FileTree} {path path' : String} {data data' : ByteArray}
    (mem : .ok (path, data) ∈ outputs o source script now)
    (mem' : .ok (path', data') ∈ outputs o source script now) (same : t.SameFile path path') :
    path = path' ∧ data = data' := by
  rcases mem_outputs_iff.1 mem with
      ⟨bundle, rfl, rfl⟩ | ⟨chunk, kind, bodies, c, part, joined, rfl, rfl⟩ <;>
    rcases mem_outputs_iff.1 mem' with
      ⟨bundle', rfl, rfl⟩ | ⟨chunk', kind', bodies', c', part', joined', rfl, rfl⟩
  · exact ⟨rfl, rfl⟩
  · rw [bundle] at chunk'
    cases chunk'
  · rw [chunk] at bundle'
    cases bundle'
  · obtain ⟨named, rfl⟩ := mem_sections part
    obtain ⟨named', rfl⟩ := mem_sections part'
    obtain rfl := Options.eq_of_sameFile named named' same
    rw [joined] at joined'
    cases joined'
    exact ⟨rfl, rfl⟩

/-- An extension shows in the last characters. -/
theorem Format.append_left_inj {f : Format} {a b x y : String} (here : x ∈ f.extensions)
    (there : y ∈ f.extensions) (same : a ++ x = b ++ y) : a = b := by
  cases f with
  | bundle =>
    obtain rfl := List.mem_singleton.1 here
    obtain rfl := List.mem_singleton.1 there
    exact (String.append_left_inj _).1 same
  | chunk =>
    have shows : ∀ x ∈ Format.chunk.extensions, ∀ y ∈ Format.chunk.extensions,
        6 ≤ x.toList.reverse.length ∧
          (x.toList.reverse.take 6 = y.toList.reverse.take 6 → x = y) := by decide
    have chars := congrArg (fun s : String => s.toList.reverse.take 6) same
    simp only [String.toList_append, List.reverse_append] at chars
    rw [List.take_append_of_le_length (shows x here y there).1,
      List.take_append_of_le_length (shows y there x here).1] at chars
    obtain rfl := (shows x here y there).2 chars
    exact (String.append_left_inj _).1 same

/-- An output that goes by the name of its source. -/
theorem exists_extension {path : String} {data : ByteArray}
    (mem : .ok (path, data) ∈ outputs o source script now) (named : o.output = "") :
    ∃ extension ∈ o.format.extensions, path = Path.output source o.outputDir extension := by
  rcases mem_outputs_iff.1 mem with
    ⟨bundle, rfl, -⟩ | ⟨format, kind, bodies, chunk, part, -, rfl, -⟩
  · rw [bundle]
    exact ⟨_, List.mem_cons_self, if_pos named⟩
  · rw [format]
    exact ⟨_, List.mem_map_of_mem (mem_sections part).1, if_pos named⟩

/-- Sources with one output have one name, apart from the directory and the extension. -/
theorem outputName_eq_of_sameFile {t : FileTree} {path path' : String} {data data' : ByteArray}
    (named : o.output = "") (mem : .ok (path, data) ∈ outputs o source script now)
    (mem' : .ok (path', data') ∈ outputs o source' script' now) (same : t.SameFile path path') :
    Path.outputName source = Path.outputName source' := by
  obtain ⟨extension, listed, rfl⟩ := exists_extension mem named
  obtain ⟨extension', listed', rfl⟩ := exists_extension mem' named
  obtain ⟨slashless, long⟩ := Format.slashless_of_mem_extensions listed
  obtain ⟨slashless', long'⟩ := Format.slashless_of_mem_extensions listed'
  have last := Path.outputName_append_eq slashless slashless' long long' same
  exact Format.append_left_inj listed listed' last

end Build

/-! ## Bundles of assembled scripts -/

/-- The numbers of procedures are below their count. -/
theorem Script.Indexed.index_lt {s : Script} (indexed : s.Indexed) {p : Procedure}
    (mem : p ∈ s.procedures) : 0 ≤ p.index ∧ p.index < s.procedures.length := by
  have listed : p.index ∈ (s.ofKind p.kind).map (·.index) :=
    List.mem_map_of_mem (mem_ofKind.2 ⟨mem, rfl⟩)
  rw [indexed.indices] at listed
  obtain ⟨i, below, same⟩ := List.mem_map.1 listed
  have few : (s.ofKind p.kind).length ≤ s.procedures.length := List.length_filter_le _ _
  have small := List.mem_range.1 below
  omega

namespace Bundle

/-- An assembled script comes back from its bundle, in order, when this fits into an archive. -/
theorem decode_encode_assembled {lib : Library} {path source : String}
    {defines : List (String × String)} {script : Script} {created : Timestamp}
    (made : (Assembly.assembleFile lib path defines).result = .ok script)
    (fits : Archive.Fits (members script source created)) (valid : created.Valid) :
    decode (encode script source created) =
      .ok (script.ordered, manifest script source created) := by
  obtain ⟨indexed, version⟩ := Assembly.indexed_of_result made
  have few : script.procedures.length < 2 ^ 16 := by
    have count := fits.count
    rw [members, List.length_cons, List.length_map] at count
    omega
  have indices : ∀ p ∈ script.procedures, -2 ^ 63 ≤ p.index ∧ p.index < 2 ^ 63 := by
    intro p mem
    have small := indexed.index_lt mem
    omega
  refine (decode_encode_eq_ok_iff (givesBack_of_fits fits valid indices)).2 ⟨?_, ?_, rfl⟩
  · rw [version]
    decide
  · refine script.indexed_ordered_iff.2 ⟨indexed.named, fun kind => ?_⟩
    rw [indexed.indices]

end Bundle

namespace Build

/-- What a file is to hold for a script: a bundle that is decoded to the script, when it fits into
an archive, or the joined chunk of one of the sections. -/
def IsOwn (o : Options) (source : String) (script : Script) (now : Timestamp) (path : String)
    (data : ByteArray) : Prop :=
  match o.format with
  | .bundle => path = o.bundlePath source ∧
    (Archive.Fits (Bundle.members script (Path.base source) now) → now.Valid →
      Bundle.decode data = .ok (script.ordered, Bundle.manifest script (Path.base source) now))
  | .chunk => ∃ kind ∈ Kind.named, path = o.sectionPath source kind ∧ ∃ chunk,
    Chunk.join ((script.ofKind kind).map (·.data)) = .ok chunk ∧ data = chunk.toByteArray

theorem isOwn_of_mem_outputs {s : Session} (made : (assemble o source s).result = .ok script)
    {path : String} {data : ByteArray} (mem : .ok (path, data) ∈ outputs o source script now) :
    IsOwn o source script now path data := by
  rcases mem_outputs_iff.1 mem with
    ⟨bundle, rfl, rfl⟩ | ⟨format, kind, bodies, chunk, part, joined, rfl, rfl⟩
  · rw [IsOwn, bundle]
    exact ⟨rfl, Bundle.decode_encode_assembled made⟩
  · rw [IsOwn, format]
    obtain ⟨named, rfl⟩ := mem_sections part
    exact ⟨kind, named, rfl, chunk, joined, rfl⟩

end Build

end RoomScript
