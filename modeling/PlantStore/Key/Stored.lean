import PlantStore.Key.Hash

/-! # How a leaf keeps its key

Keys are short as a rule. A key of at most 32 bytes lives in a buffer of that size inside
the leaf, filled up with zeros; a longer one is kept beside it. Both forms give back the key
they were made from, and since the length is kept, zeros at the end of a key are told from
the filling. -/

namespace PlantStore

def inlineCapacity : Nat := 32

/-- A key as a leaf keeps it. -/
inductive StoredKey
  /-- The first `length` bytes of the buffer are the key's. -/
  | inline (length : UInt8) (buffer : Vector UInt8 inlineCapacity)
  | separate (text : String)
  deriving DecidableEq

namespace StoredKey

open Text

def ofString (key : String) : StoredKey :=
  let bytes := utf8Bytes key
  if bytes.length ≤ inlineCapacity then
    .inline (UInt8.ofNat bytes.length) (Vector.ofFn fun i => bytes.getD i 0)
  else
    .separate key

/-- The key that a stored form stands for. Bytes that are no text, which `ofString` never
stores, read as the empty key. -/
def toString : StoredKey → String
  | .inline length buffer =>
    (ofUtf8? (buffer.toList.take length.toNat)).getD ""
  | .separate text => text

def isInline : StoredKey → Bool
  | .inline .. => true
  | .separate _ => false

/-! ### Nothing is lost -/

@[simp] theorem toString_ofString (key : String) : (ofString key).toString = key := by
  simp only [ofString]
  split
  · rename_i h
    have hlen : (UInt8.ofNat (utf8Bytes key).length).toNat = (utf8Bytes key).length :=
      UInt8.toNat_ofNat_of_lt' (Nat.lt_of_le_of_lt h (by decide))
    have hbytes : (Vector.ofFn fun i : Fin inlineCapacity => (utf8Bytes key).getD i 0).toList.take
        (utf8Bytes key).length = utf8Bytes key := by
      apply List.ext_getElem
      · simp; omega
      · intro i _ h₂
        simp [List.getD, h₂]
    simp only [toString, hlen, hbytes, ofUtf8?_utf8Bytes, Option.getD_some]
  · rfl

/-- A key is stored in the buffer exactly if it fits. -/
theorem isInline_ofString (key : String) :
    (ofString key).isInline = decide ((utf8Bytes key).length ≤ inlineCapacity) := by
  simp only [ofString]
  split <;> simp_all [isInline]

end StoredKey

end PlantStore
