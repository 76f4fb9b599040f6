import PlantStore.Proofs.Leaf

/-! # Keys are kept as they are

A key has one stored form, given by two rules: a short key stands in the buffer with zeros behind
it, a longer one for itself. The rules say nothing of how a key is read back; that the length is kept
beside the buffer is what tells zeros at the end of a key from the filling. So nothing is lost, no
two keys share a form, and a leaf answers to its own key only. -/

namespace PlantStore

open Text

namespace StoredKey

/-! ### The stored form -/

/-- The rules for the stored form of a key. -/
inductive Keeps : StoredKey → String → Prop
  /-- A short key fills the front of the buffer, and zeros the rest. -/
  | inline {key : String} {length : UInt8} {buffer : Vector UInt8 inlineCapacity}
    (hfits : (utf8Bytes key).length ≤ 32) (hlength : length.toNat = (utf8Bytes key).length)
    (hbuffer : buffer.toList =
      utf8Bytes key ++ List.replicate (32 - (utf8Bytes key).length) 0) :
    Keeps (.inline length buffer) key
  /-- A longer key is kept beside the buffer. -/
  | separate {key : String} (hlong : 32 < (utf8Bytes key).length) : Keeps (.separate key) key

/-- The stored form of a key obeys the rules. -/
theorem keeps_ofString (key : String) : Keeps (ofString key) key := by
  rw [ofString]
  split
  next h =>
    have hfits : (utf8Bytes key).length ≤ 32 := h
    refine .inline hfits (UInt8.toNat_ofNat_of_lt' (Nat.lt_of_le_of_lt h (by decide))) ?_
    apply List.ext_getElem
    · simp [inlineCapacity]
      omega
    · intro i hi _
      rw [List.getElem_append]
      split
      next hkey => simp [hkey]
      next hrest => simp [Nat.le_of_not_lt hrest]
  next h => exact .separate (Nat.lt_of_not_le h)

/-- The rules leave one form for a key. -/
theorem Keeps.unique {a b : StoredKey} {key : String} (ha : Keeps a key) (hb : Keeps b key) :
    a = b := by
  cases ha with
  | inline hfits hlength hbuffer =>
      cases hb with
      | inline _ hlength' hbuffer' =>
          obtain rfl := UInt8.toNat_inj.mp (hlength.trans hlength'.symm)
          obtain rfl := Vector.toList_inj.mp (hbuffer.trans hbuffer'.symm)
          rfl
      | separate hlong => omega
  | separate hlong =>
      cases hb with
      | inline hfits => omega
      | separate _ => rfl

theorem keeps_iff {stored : StoredKey} {key : String} :
    Keeps stored key ↔ stored = ofString key :=
  ⟨fun h => h.unique (keeps_ofString key), fun h => h ▸ keeps_ofString key⟩

/-- A form that obeys the rules is read without falling back to the empty key. -/
theorem Keeps.ofUtf8?_eq {key : String} {length : UInt8} {buffer : Vector UInt8 inlineCapacity}
    (h : Keeps (.inline length buffer) key) :
    ofUtf8? (buffer.toList.take length.toNat) = some key := by
  cases h with
  | inline hfits hlength hbuffer =>
      rw [hlength, hbuffer, List.take_left, ofUtf8?_utf8Bytes]

theorem ofString_inj {a b : String} : ofString a = ofString b ↔ a = b := by
  constructor
  · intro h
    rw [← toString_ofString a, h, toString_ofString]
  · rintro rfl
    rfl

end StoredKey

/-! ### The theorem -/

section

variable [KeyHash]

theorem Leaf.create_answersTo_iff {key other : String} (seed : Seed) (elements : List Element) :
    (create key seed elements).answersTo other (KeyHash.hash other) = true ↔ key = other := by
  have hhash : (create key seed elements).hash =
      KeyHash.hash (create key seed elements).name := by rw [name_create]; rfl
  rw [answersTo_eq hhash, name_create, beq_iff_eq]

/-- A key has exactly one stored form that obeys the rules, and reading that form gives the key
back; a form in the buffer is always read as a text. The buffer is used exactly for the keys that fit.
Different keys have different stored forms, and a leaf that was made for a key answers to that key
and to no other. -/
theorem StoredKey.keeps_every_key (key : String) :
    (∀ stored, Keeps stored key ↔ stored = ofString key) ∧
    (ofString key).toString = key ∧
    (∀ length buffer, ofString key = .inline length buffer →
      ofUtf8? (buffer.toList.take length.toNat) = some key) ∧
    ((ofString key).isInline = true ↔ (utf8Bytes key).length ≤ 32) ∧
    (∀ other, ofString key = ofString other ↔ key = other) ∧
    ∀ seed elements other,
      (Leaf.create key seed elements).answersTo other (KeyHash.hash other) = true ↔
        key = other := by
  refine ⟨fun _ => keeps_iff, toString_ofString key, ?_, ?_, fun _ => ofString_inj,
    fun seed elements _ => Leaf.create_answersTo_iff seed elements⟩
  · intro length buffer h
    exact (keeps_iff.mpr h.symm).ofUtf8?_eq
  · rw [isInline_ofString, decide_eq_true_iff]
    rfl

end

example : StoredKey.ofString "a" ≠ StoredKey.ofString "a\x00" := by decide +kernel

end PlantStore
