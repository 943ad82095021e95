import FloatLang.Source
import FloatLang.Proofs.Lists

/-!
# Lines of encoded texts

A source has one character for each byte of its file. If the file is the encoding of a text, then each
character of the text has become some characters of the source: a line break is its own encoding, and
the bytes of all others are different from it. So the source is broken into lines where the text is.

## Main definitions

* `Source.encode` — the characters of a source for a character of a text

## Main results

* `Source.charactersOf_toUTF8` — a source of an encoded text
* `Source.lineBreak_notMem_encode` — only line breaks are encoded with line breaks
* `Source.splitOn_charactersOf` — the lines of the source
-/

namespace FloatLang

namespace Source

/-- The characters that a source has for a character of a text, one for each byte of its encoding. -/
def encode (c : Char) : List Char := (String.utf8EncodeChar c).map Char.ofUInt8

/-- The source of an encoded text has the characters of its characters. -/
theorem charactersOf_toUTF8 (text : String) :
    charactersOf text.toUTF8 = text.toList.flatMap encode := by
  have hbytes : text.toUTF8 = text.toList.utf8Encode := String.utf8Encode_toList.symm
  rw [charactersOf, hbytes, List.utf8Encode, List.data_toByteArray, List.map_flatMap]
  rfl

theorem encode_lineBreak : encode '\n' = ['\n'] := by decide

/-- A byte below 128 in the encoding of a character is that character. -/
theorem toNat_of_mem_utf8EncodeChar {c : Char} {b : UInt8} (hb : b ∈ String.utf8EncodeChar c)
    (hlt : b.toNat < 128) : b.toNat = c.toNat := by
  have hc : c.toNat = c.val.toNat := rfl
  rw [hc]
  unfold String.utf8EncodeChar at hb
  generalize c.val.toNat = v at hb
  dsimp only at hb
  split at hb
  next hv =>
    obtain rfl := List.mem_singleton.1 hb
    rw [UInt8.toNat_ofNat']
    omega
  -- the other encodings have bytes from 128 on only
  split at hb
  next =>
    simp only [List.mem_cons, List.not_mem_nil, or_false] at hb
    rcases hb with rfl | rfl <;> (rw [UInt8.toNat_ofNat'] at hlt; omega)
  split at hb
  next =>
    simp only [List.mem_cons, List.not_mem_nil, or_false] at hb
    rcases hb with rfl | rfl | rfl <;> (rw [UInt8.toNat_ofNat'] at hlt; omega)
  next =>
    simp only [List.mem_cons, List.not_mem_nil, or_false] at hb
    rcases hb with rfl | rfl | rfl | rfl <;> (rw [UInt8.toNat_ofNat'] at hlt; omega)

/-- Only line breaks are encoded with line breaks. -/
theorem lineBreak_notMem_encode {c : Char} (hc : c ≠ '\n') : '\n' ∉ encode c := by
  intro hmem
  obtain ⟨b, hb, hbreak⟩ := List.mem_map.1 hmem
  have hcode : b.toNat = 10 := congrArg Char.toNat hbreak
  have hlow := toNat_of_mem_utf8EncodeChar hb (by omega)
  exact hc (Char.toNat_inj.1 (hlow.symm.trans hcode))

/-- A source has one character for each byte. -/
theorem length_flatMap_encode (line : List Char) :
    (line.flatMap encode).length = (String.ofList line).utf8ByteSize := by
  have hsize := String.size_toByteArray (s := String.ofList line)
  rw [← hsize, ← String.utf8Encode_toList, String.toList_ofList, List.utf8Encode,
    List.size_toByteArray]
  simp [encode, List.length_flatMap]

/-- The lines of the source are those of the text. -/
theorem splitOn_charactersOf (text : String) :
    (charactersOf text.toUTF8).splitOn '\n' = (text.toList.splitOn '\n').map (·.flatMap encode) := by
  rw [charactersOf_toUTF8]
  exact splitOn_flatMap encode_lineBreak (fun _ => lineBreak_notMem_encode) _

end Source

end FloatLang
