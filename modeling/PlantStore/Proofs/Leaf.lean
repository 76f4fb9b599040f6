import PlantStore.Leaf
import PlantStore.Proofs.Flags

/-! # Well-formed leaves

A leaf is made from a key, a seed and a value list, and what it stores is all derived from
them: the stored key and the hash from the key, the elements from values that fit the seed.
`Leaf.Holds` names those values, and reading the leaf gives them back. -/

namespace PlantStore

/-! ### Value lists and their elements -/

namespace Element

/-- A value list is stored exactly if the seed can be a leaf's and every value fits it. -/
theorem encodeAll_eq_ok_iff {s : Seed} {values : List Value} {elements : List Element} :
    encodeAll s values = .ok elements ↔
      s.isValid = true ∧ (∀ v ∈ values, v.fits s = true) ∧ elements = values.map ofValue := by
  rw [encodeAll]
  by_cases h : (s.isValid && values.all (·.fits s)) = true
  · rw [if_pos h]
    rw [Bool.and_eq_true, List.all_eq_true] at h
    constructor
    · intro he
      cases he
      exact ⟨h.1, h.2, rfl⟩
    · rintro ⟨-, -, rfl⟩
      rfl
  · rw [if_neg h]
    constructor
    · intro he
      cases he
    · rintro ⟨hs, hv, -⟩
      exact absurd (Bool.and_eq_true_iff.mpr ⟨hs, List.all_eq_true.mpr hv⟩) h

/-- A value list is refused for one cause only. -/
theorem encodeAll_eq_error {s : Seed} {values : List Value} {e : StoreError}
    (h : encodeAll s values = .error e) : e = .wrongSeedType := by
  rw [encodeAll] at h
  split at h
  · cases h
  · cases h
    rfl

theorem decode_ofValue {s : Seed} {v : Value} (h : v.fits s = true) :
    decode s (ofValue v) = .ok v := by
  rw [decode, value?_ofValue h]

/-- The elements of values that fit a seed are read as those values. -/
theorem decodeAll_map_ofValue {s : Seed} {values : List Value}
    (h : ∀ v ∈ values, v.fits s = true) : decodeAll s (values.map ofValue) = .ok values := by
  induction values with
  | nil => rfl
  | cons v values ih =>
      have hrest : decodeAll s (values.map ofValue) = .ok values :=
        ih fun w hw => h w (List.mem_cons_of_mem v hw)
      rw [decodeAll] at hrest ⊢
      rw [List.map_cons, List.mapM_cons, decode_ofValue (h v List.mem_cons_self), hrest]
      rfl

end Element

/-! ### What a leaf holds -/

namespace Leaf

/-- The leaf stores a value list whose values fit its seed. -/
def Holds (leaf : Leaf) (values : List Value) : Prop :=
  (∀ v ∈ values, v.fits leaf.seed = true) ∧ leaf.elements = values.map Element.ofValue

/-- A leaf is read as the values that it holds. -/
theorem Holds.values_eq {leaf : Leaf} {values : List Value} (h : leaf.Holds values) :
    leaf.values = .ok values := by
  rw [Leaf.values, h.2]
  exact Element.decodeAll_map_ofValue h.1

theorem Holds.valueAt_eq {leaf : Leaf} {values : List Value} (h : leaf.Holds values)
    (index : Nat) :
    leaf.valueAt index = (values[index]?).elim (.error .noSuchElement) .ok := by
  rw [valueAt, h.2, List.getElem?_map]
  cases hv : values[index]? with
  | none => rfl
  | some v => exact Element.decode_ofValue (h.1 v (List.mem_of_getElem? hv))

theorem Holds.length_eq {leaf : Leaf} {values : List Value} (h : leaf.Holds values) :
    leaf.elements.length = values.length := by
  rw [h.2, List.length_map]

/-! ### Changing what a leaf holds -/

/-- A change that keeps the key, the hash and the seed of a leaf, and the marks of the store. -/
structure IsContent (change : Leaf → Leaf) : Prop where
  key : ∀ leaf, (change leaf).key = leaf.key
  hash : ∀ leaf, (change leaf).hash = leaf.hash
  seed : ∀ leaf, (change leaf).seed = leaf.seed
  defunct : ∀ leaf, (change leaf).flags.contains .defunct = leaf.flags.contains .defunct
  removing : ∀ leaf, (change leaf).flags.contains .removing = leaf.flags.contains .removing

theorem IsContent.name {change : Leaf → Leaf} (h : IsContent change) (leaf : Leaf) :
    (change leaf).name = leaf.name :=
  congrArg StoredKey.toString (h.key leaf)

theorem isContent_elements (elements : List Element) :
    IsContent fun leaf => { leaf with elements := elements } :=
  ⟨fun _ => rfl, fun _ => rfl, fun _ => rfl, fun _ => rfl, fun _ => rfl⟩

theorem isContent_hostWord (word : UInt64) :
    IsContent fun leaf => { leaf with hostWord := word } :=
  ⟨fun _ => rfl, fun _ => rfl, fun _ => rfl, fun _ => rfl, fun _ => rfl⟩

theorem isContent_flags (flags : LeafFlags) :
    IsContent fun leaf => { leaf with flags := leaf.flags.replaceVisible flags } := by
  refine ⟨fun _ => rfl, fun _ => rfl, fun _ => rfl, fun leaf => ?_, fun leaf => ?_⟩
  · simp
  · simp

/-! ### Well-formed leaves -/

variable [KeyHash]

/-- What is stored in a leaf is derived from a key, a seed and a value list. -/
structure WellFormed (leaf : Leaf) : Prop where
  key_eq : leaf.key = .ofString leaf.name
  hash_eq : leaf.hash = KeyHash.hash leaf.name
  seed_valid : leaf.seed.isValid = true
  holds : ∃ values, leaf.Holds values

/-- A leaf answers to a key exactly if it has that name; the hash decides nothing. -/
theorem answersTo_eq {leaf : Leaf} (h : leaf.hash = KeyHash.hash leaf.name) (key : String) :
    leaf.answersTo key (KeyHash.hash key) = (leaf.name == key) := by
  rw [answersTo, h]
  by_cases hk : leaf.name = key
  · rw [hk, BEq.rfl, Bool.true_and]
  · rw [beq_false_of_ne hk, Bool.and_false]

@[simp] theorem name_create (key : String) (seed : Seed) (elements : List Element) :
    (create key seed elements).name = key :=
  StoredKey.toString_ofString key

/-- A new leaf is well-formed if its elements are those of values under its seed. -/
theorem wellFormed_create {seed : Seed} {values : List Value} {elements : List Element}
    (h : Element.encodeAll seed values = .ok elements) (key : String) :
    (create key seed elements).WellFormed := by
  obtain ⟨hs, hv, he⟩ := Element.encodeAll_eq_ok_iff.mp h
  refine ⟨?_, ?_, hs, values, hv, he⟩
  · rw [name_create]
    rfl
  · rw [name_create]
    rfl

/-- A change of content keeps a leaf well-formed if it leaves values that fit. -/
theorem WellFormed.change {f : Leaf → Leaf} (hf : IsContent f) {leaf : Leaf}
    (h : leaf.WellFormed) (hv : ∃ values, (f leaf).Holds values) : (f leaf).WellFormed := by
  refine ⟨?_, ?_, ?_, hv⟩
  · rw [hf.name, hf.key]
    exact h.key_eq
  · rw [hf.name, hf.hash]
    exact h.hash_eq
  · rw [hf.seed]
    exact h.seed_valid

end Leaf
end PlantStore
