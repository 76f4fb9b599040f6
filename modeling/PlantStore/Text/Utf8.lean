/-! # Texts as bytes

A text and its bytes in UTF-8. Every text has bytes, but not all bytes are those of a
text. -/

namespace PlantStore.Text

def utf8Bytes (s : String) : List UInt8 := s.toByteArray.data.toList

/-- The text with the given bytes, if they are those of one. -/
def ofUtf8? (bytes : List UInt8) : Option String := String.fromUTF8? ⟨bytes.toArray⟩

@[simp] theorem ofUtf8?_utf8Bytes (s : String) : ofUtf8? (utf8Bytes s) = some s := by
  simp [ofUtf8?, utf8Bytes, String.fromUTF8?, String.fromUTF8, s.isValidUTF8]

theorem utf8Bytes_injective : Function.Injective utf8Bytes := by
  intro a b h
  have hread : ofUtf8? (utf8Bytes a) = ofUtf8? (utf8Bytes b) := congrArg ofUtf8? h
  rw [ofUtf8?_utf8Bytes, ofUtf8?_utf8Bytes] at hread
  exact Option.some.inj hread

theorem utf8Bytes_append (a b : String) : utf8Bytes (a ++ b) = utf8Bytes a ++ utf8Bytes b := by
  simp [utf8Bytes]

end PlantStore.Text
