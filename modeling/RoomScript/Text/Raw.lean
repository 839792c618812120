import RoomScript.Text.Quoted
import RoomScript.Text.Utf8

/-!
# Raw texts

Texts that come from an archive are byte strings, and need not be well-formed UTF-8.  They are
compared by their bytes.

* `RawText.ofString` takes a text by its bytes, also as a coercion;
* `RawText.text` shows a raw text, with replacement characters where it is not well-formed;
* `RawText.quote` puts it in quotes, with every byte that belongs to no character by its number.
-/

namespace RoomScript

/-- A byte string that is meant as a text. -/
structure RawText where
  bytes : ByteArray

namespace RawText

/-- Raw texts with the same bytes are equal. -/
instance : DecidableEq RawText := fun a b =>
  decidable_of_iff (a.bytes.data = b.bytes.data)
    ⟨fun h => congrArg RawText.mk (ByteArray.ext h), fun h => h ▸ rfl⟩

/-- The bytes of a text. -/
def ofString (s : String) : RawText :=
  ⟨s.toUTF8⟩

instance : Coe String RawText where
  coe := ofString

/-- The text that is shown for the bytes. -/
def text (r : RawText) : String :=
  Text.ofBytes r.bytes

@[simp] theorem text_ofString (s : String) : (ofString s).text = s :=
  Text.ofBytes_toUTF8 s

instance : Repr RawText where
  reprPrec r width := reprPrec r.text width

/-- The characters for bytes within quotes. -/
def quotedBytes (bytes : List UInt8) : List Char :=
  match bytes with
  | [] => []
  | b :: rest =>
    match _read : Text.readChar? b rest with
    | some (c, after) => Text.quotedChar '"' c ++ quotedBytes after
    | none => '\\' :: 'x' :: Text.hexFixed 2 b.toNat ++ quotedBytes rest
termination_by bytes.length
decreasing_by
  · have := Text.length_readChar? _read
    simp only [List.length_cons]
    omega
  · simp

/-- A raw text in double quotes. -/
def quote (r : RawText) : String :=
  String.ofList ('"' :: (quotedBytes r.bytes.toList ++ ['"']))

end RawText

end RoomScript
