import PlantStore.Flags

/-! # Flag words, bit by bit

A flag of a leaf is one bit. Every question about a word that has been changed is answered by
looking at one bit of it, so the laws below push `insert`, `remove` and `replaceVisible` down to
the bits, where the flags of the callers and the marks of the store do not meet. -/

namespace PlantStore
namespace LeafFlags

/-- The bit of a flag word at a position. -/
def bit (flags : LeafFlags) (i : Nat) : Bool := flags.bits.toBitVec.getLsbD i

theorem ext_bit {a b : LeafFlags} (h : ∀ i, a.bit i = b.bit i) : a = b :=
  ext_bits fun i _ => h i

/-! ### The operations -/

@[simp] theorem bit_insert (flags more : LeafFlags) (i : Nat) :
    (flags.insert more).bit i = (flags.bit i || more.bit i) := by
  simp [bit, insert]

@[simp] theorem bit_remove (flags fewer : LeafFlags) (i : Nat) :
    (flags.remove fewer).bit i = (flags.bit i && !fewer.bit i) := by
  simp only [bit, remove, UInt32.toBitVec_and, UInt32.toBitVec_not, BitVec.getLsbD_and,
    BitVec.getLsbD_not]
  by_cases hi : i < 32
  · simp [hi]
  · simp [BitVec.getLsbD_of_ge _ i (Nat.le_of_not_lt hi)]

@[simp] theorem bit_replaceVisible (flags wanted : LeafFlags) (i : Nat) :
    (flags.replaceVisible wanted).bit i =
      (flags.bit i && reserved.bit i || wanted.bit i && !reserved.bit i) := by
  simp only [bit, replaceVisible, UInt32.toBitVec_or, UInt32.toBitVec_and, UInt32.toBitVec_not,
    BitVec.getLsbD_or, BitVec.getLsbD_and, BitVec.getLsbD_not]
  by_cases hi : i < 32
  · simp [hi]
  · simp [BitVec.getLsbD_of_ge _ i (Nat.le_of_not_lt hi)]

@[simp] theorem bit_visible (flags : LeafFlags) (i : Nat) :
    flags.visible.bit i = (flags.bit i && !reserved.bit i) :=
  bit_remove flags reserved i

/-! ### The words with names -/

/-- Two words agree at every position if they do at the 32 positions that there are. -/
theorem bit_eq_of_lt {flags : LeafFlags} {f : Nat → Bool} (hge : ∀ i, 32 ≤ i → f i = false)
    (hlt : ∀ i < 32, flags.bit i = f i) (i : Nat) : flags.bit i = f i := by
  by_cases hi : i < 32
  · exact hlt i hi
  · have hi' : 32 ≤ i := Nat.le_of_not_lt hi
    rw [hge i hi']
    exact BitVec.getLsbD_of_ge _ i hi'

@[simp] theorem bit_empty (i : Nat) : empty.bit i = false := by
  simp [bit, empty]

@[simp] theorem bit_undeletable (i : Nat) : undeletable.bit i = decide (i = 0) :=
  bit_eq_of_lt (f := fun i => decide (i = 0)) (fun i hi => by simp; omega) (by decide) i

@[simp] theorem bit_immutable (i : Nat) : immutable.bit i = decide (i = 1) :=
  bit_eq_of_lt (f := fun i => decide (i = 1)) (fun i hi => by simp; omega) (by decide) i

@[simp] theorem bit_removing (i : Nat) : removing.bit i = decide (i = 16) :=
  bit_eq_of_lt (f := fun i => decide (i = 16)) (fun i hi => by simp; omega) (by decide) i

@[simp] theorem bit_defunct (i : Nat) : defunct.bit i = decide (i = 17) :=
  bit_eq_of_lt (f := fun i => decide (i = 17)) (fun i hi => by simp; omega) (by decide) i

@[simp] theorem bit_reserved (i : Nat) : reserved.bit i = decide (16 ≤ i ∧ i < 32) :=
  bit_eq_of_lt (f := fun i => decide (16 ≤ i ∧ i < 32)) (fun i hi => by simp; omega)
    (by decide) i

/-! ### Asking for one flag -/

theorem contains_iff {flags wanted : LeafFlags} :
    flags.contains wanted = true ↔ ∀ i, wanted.bit i = true → flags.bit i = true := by
  have hand : ∀ i, (⟨flags.bits &&& wanted.bits⟩ : LeafFlags).bit i =
      (flags.bit i && wanted.bit i) := by
    intro i
    simp [bit]
  rw [contains, hasBits, beq_iff_eq]
  constructor
  · intro h i hi
    have hw : flags.bit i = true ∧ wanted.bit i = true := by
      rw [← Bool.and_eq_true, ← hand i, h]
      exact hi
    exact hw.1
  · intro h
    have hword : (⟨flags.bits &&& wanted.bits⟩ : LeafFlags) = wanted := by
      apply ext_bit
      intro i
      rw [hand i]
      cases hw : wanted.bit i with
      | false => rw [Bool.and_false]
      | true => rw [h i hw, Bool.and_true]
    exact congrArg bits hword

/-- Asking for a word of one bit is asking for the bit. -/
theorem contains_of_bit {wanted : LeafFlags} {k : Nat} (h : ∀ i, wanted.bit i = decide (i = k))
    (flags : LeafFlags) : flags.contains wanted = flags.bit k := by
  rw [Bool.eq_iff_iff, contains_iff]
  constructor
  · intro hw
    exact hw k (by simp [h k])
  · intro hk i hi
    obtain rfl : i = k := by simpa [h i] using hi
    exact hk

@[simp] theorem contains_undeletable (flags : LeafFlags) :
    flags.contains undeletable = flags.bit 0 :=
  contains_of_bit bit_undeletable flags

@[simp] theorem contains_immutable (flags : LeafFlags) :
    flags.contains immutable = flags.bit 1 :=
  contains_of_bit bit_immutable flags

@[simp] theorem contains_removing (flags : LeafFlags) :
    flags.contains removing = flags.bit 16 :=
  contains_of_bit bit_removing flags

@[simp] theorem contains_defunct (flags : LeafFlags) :
    flags.contains defunct = flags.bit 17 :=
  contains_of_bit bit_defunct flags

/-! ### The mark of a waiting removal -/

/-- Taking the mark off changes nothing if it is not there. -/
theorem remove_removing_of_not {flags : LeafFlags} (h : flags.contains removing = false) :
    flags.remove removing = flags := by
  rw [contains_removing] at h
  apply ext_bit
  intro i
  by_cases hi : i = 16
  · simp [hi, h]
  · simp [hi]

/-- Putting the mark on and taking it off again is taking it off. -/
@[simp] theorem remove_insert_removing (flags : LeafFlags) :
    (flags.insert removing).remove removing = flags.remove removing := by
  apply ext_bit
  intro i
  by_cases hi : i = 16 <;> simp [hi]

/-- A marked word is its unmarked form with the mark put on. -/
theorem insert_remove_removing {flags : LeafFlags} (h : flags.contains removing = true) :
    (flags.remove removing).insert removing = flags := by
  rw [contains_removing] at h
  apply ext_bit
  intro i
  by_cases hi : i = 16
  · simp [hi, h]
  · simp [hi]

/-- Callers do not see the mark. -/
@[simp] theorem visible_remove_removing (flags : LeafFlags) :
    (flags.remove removing).visible = flags.visible := by
  apply ext_bit
  intro i
  by_cases hi : i = 16 <;> simp [hi]

/-- The callers' flags and the mark are replaced independently. -/
theorem replaceVisible_remove_removing (flags wanted : LeafFlags) :
    (flags.remove removing).replaceVisible wanted =
      (flags.replaceVisible wanted).remove removing := by
  apply ext_bit
  intro i
  by_cases hi : i = 16 <;> simp [hi]

/-- The mark of a freed plant and the mark of a removal are put on independently. -/
theorem insert_defunct_remove_removing (flags : LeafFlags) :
    (flags.remove removing).insert defunct = (flags.insert defunct).remove removing := by
  apply ext_bit
  intro i
  by_cases hi : i = 16 <;> simp [hi]

end LeafFlags
end PlantStore
