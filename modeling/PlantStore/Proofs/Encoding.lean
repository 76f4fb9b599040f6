import Mathlib.Data.List.Forall2
import PlantStore.Proofs.Leaf

/-! # Storing a value list, and reading it back

A value list is stored value by value: each is checked against the seed and copied, and the first
one that does not fit makes the store drop what it has built so far. The copy is made by the kind
of the value, but an element does not say of which kind it is. It is read back by who owns it and
then by the seed, and its size is told in the same way. That the two sides agree, for every seed
and every value that fits it, is what a leaf relies on. -/

namespace PlantStore
namespace Element

/-! ### Value by value -/

/-- The stored form of one value. -/
def encode (s : Seed) (v : Value) : Result Element :=
  if v.fits s then .ok (ofValue v) else .error .wrongSeedType

/-- Goes on storing a value list of which some elements are `built`. -/
def encodeFrom (s : Seed) (built : List Element) : List Value → Result (List Element)
  | [] => .ok built
  | v :: rest =>
    match encode s v with
    | .ok element => encodeFrom s (built ++ [element]) rest
    | .error e => .error e

/-- The stored form of a value list, built value by value. -/
def encodeEach (s : Seed) (values : List Value) : Result (List Element) :=
  if s.isValid then encodeFrom s [] values else .error .wrongSeedType

/-- The loop comes to the end exactly if every value fits. -/
theorem encodeFrom_eq (s : Seed) (built : List Element) (values : List Value) :
    encodeFrom s built values =
      if values.all (·.fits s) then .ok (built ++ values.map ofValue)
      else .error .wrongSeedType := by
  induction values generalizing built with
  | nil => rw [encodeFrom, List.map_nil, List.append_nil, List.all_nil, if_pos rfl]
  | cons v rest ih =>
      rw [encodeFrom, encode, List.all_cons, List.map_cons]
      cases hv : v.fits s with
      | false => rfl
      | true =>
          rw [if_pos rfl, Bool.true_and, List.append_cons]
          exact ih _

/-- Checking the whole list first comes to the same. -/
theorem encodeAll_eq_encodeEach (s : Seed) (values : List Value) :
    encodeAll s values = encodeEach s values := by
  rw [encodeAll, encodeEach, encodeFrom_eq, List.nil_append]
  cases s.isValid with
  | false => rfl
  | true => rw [Bool.true_and, if_pos rfl]

/-! ### One element -/

/-- What can be told of the element that stands for a value under a seed. -/
structure StandsFor (s : Seed) (element : Element) (v : Value) : Prop where
  decode : element.decode s = .ok v
  /-- The size of a string is that of its text. -/
  size_string : s = .string → ∃ t, v = .string t ∧ element.size s = (Text.utf8Bytes t).length
  /-- The size of anything else is that of the seed. -/
  size_fixed : s ≠ .string → element.size s = s.fixedSize
  /-- Words are kept as they are. -/
  unowned : s.isPointer = true → ∃ word, v = .pointer word ∧ element = .unowned word
  /-- Anything else is copied, and its size is the number of bytes of the copy. -/
  owned : s.isPointer = false → ∃ bytes, element = .owned bytes ∧ bytes.length = element.size s

theorem size_of_ne_string (element : Element) {s : Seed} (h : s ≠ .string) :
    element.size s = s.fixedSize := by
  cases element with
  | owned bytes => exact if_neg h
  | unowned word => rfl

/-- A scalar is stored in as many bytes as its seed says. -/
theorem standsFor_scalar {s : Seed} {v : Value} {bytes : List UInt8} (hfits : v.fits s = true)
    (helement : ofValue v = .owned bytes) (hstring : s ≠ .string) (hpointer : s.isPointer = false)
    (hlength : bytes.length = s.fixedSize) : StandsFor s (ofValue v) v where
  decode := decode_ofValue hfits
  size_string := fun h => absurd h hstring
  size_fixed := size_of_ne_string _
  unowned := fun h => (by rw [hpointer] at h; cases h)
  owned := fun _ => ⟨bytes, helement, by rw [hlength, size_of_ne_string _ hstring]⟩

/-- The stored form of a value stands for it under every seed that the value fits. -/
theorem standsFor_ofValue {s : Seed} {v : Value} (h : v.fits s = true) :
    StandsFor s (ofValue v) v := by
  -- Every kind but a pointer fits one seed only.
  cases v with
  | int n =>
      obtain rfl : s = .int := beq_iff_eq.mp h
      exact standsFor_scalar h rfl (by decide) rfl (length_littleEndian _ _)
  | int64 n =>
      obtain rfl : s = .int64 := beq_iff_eq.mp h
      exact standsFor_scalar h rfl (by decide) rfl (length_littleEndian _ _)
  | double d =>
      obtain rfl : s = .double := beq_iff_eq.mp h
      exact standsFor_scalar h rfl (by decide) rfl (length_littleEndian _ _)
  | boolean b =>
      obtain rfl : s = .boolean := beq_iff_eq.mp h
      exact standsFor_scalar h rfl (by decide) rfl (length_littleEndian _ _)
  | string t =>
      obtain rfl : s = .string := beq_iff_eq.mp h
      exact ⟨decode_ofValue h, fun _ => ⟨t, rfl, rfl⟩, fun hne => absurd rfl hne,
        fun hpointer => (by cases hpointer), fun _ => ⟨_, rfl, rfl⟩⟩
  | pointer word =>
      have hpointer : s.isPointer = true := h
      have hstring : s ≠ .string := by
        rintro rfl
        cases hpointer
      exact ⟨decode_ofValue h, fun heq => absurd heq hstring, size_of_ne_string _,
        fun _ => ⟨word, rfl, rfl⟩, fun hnot => (by rw [hpointer] at hnot; cases hnot)⟩

/-! ### The theorem -/

/-- What is stored is what is read back. A value list is stored exactly if the seed can be a leaf's
and every value fits it, and is refused for no other cause; then its elements stand for its values,
one for each and in their order. -/
theorem encoding_round_trips (s : Seed) (values : List Value) :
    encodeAll s values = encodeEach s values ∧
    ((∃ elements, encodeAll s values = .ok elements) ↔
      s.isValid = true ∧ ∀ v ∈ values, v.fits s = true) ∧
    (∀ v : Value, v.fits s = true → s.isValid = true) ∧
    (∀ e, encodeAll s values = .error e → e = .wrongSeedType) ∧
    (∀ elements, encodeAll s values = .ok elements →
      List.Forall₂ (StandsFor s) elements values ∧ decodeAll s elements = .ok values) := by
  refine ⟨encodeAll_eq_encodeEach s values, ?_, fun v => Value.isValid_of_fits,
    fun e => encodeAll_eq_error, ?_⟩
  · constructor
    · rintro ⟨elements, h⟩
      obtain ⟨hs, hv, -⟩ := encodeAll_eq_ok_iff.mp h
      exact ⟨hs, hv⟩
    · rintro ⟨hs, hv⟩
      exact ⟨values.map ofValue, encodeAll_eq_ok_iff.mpr ⟨hs, hv, rfl⟩⟩
  · intro elements h
    obtain ⟨-, hv, rfl⟩ := encodeAll_eq_ok_iff.mp h
    refine ⟨?_, decodeAll_map_ofValue hv⟩
    rw [List.forall₂_map_left_iff, List.forall₂_same]
    exact fun v hmem => standsFor_ofValue (hv v hmem)

example : encodeAll .int [.int (-2), .int 1] =
    .ok [.owned [254, 255, 255, 255], .owned [1, 0, 0, 0]] := by decide

end Element
end PlantStore
