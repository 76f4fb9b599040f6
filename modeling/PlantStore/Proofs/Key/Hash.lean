import Mathlib.Algebra.BigOperators.Fin
import Mathlib.Data.Int.ModEq
import Mathlib.Tactic.Ring
import PlantStore.Key.Hash

/-! # The hash of a key as a number

The hash of a key is computed modulo `2 ^ 32` at every step, but it is one number reduced once: the
bytes of the key are the digits of that number to the base 33, behind a first digit of 5381. So the
hash of two keys put together can be told from theirs, and whatever is put around two keys of one
length and one hash leaves them with one hash. -/

namespace PlantStore

open Text

/-! ### Without reduction -/

/-- The number that bytes stand for as digits to the base 33. -/
def byteValue (bytes : List UInt8) : Nat :=
  ∑ i : Fin bytes.length, (bytes.get i).toNat * 33 ^ (bytes.length - 1 - i)

theorem byteValue_cons (b : UInt8) (bytes : List UInt8) :
    byteValue (b :: bytes) = b.toNat * 33 ^ bytes.length + byteValue bytes := by
  simp only [byteValue, List.length_cons, Fin.sum_univ_succ, List.get_cons_zero,
    Fin.val_zero, Fin.val_succ]
  congr 1
  apply Finset.sum_congr rfl
  intro i _
  congr 2
  omega

/-- One step of the hash over natural numbers. -/
def wideHashStep (n : Nat) (b : UInt8) : Nat := n * 33 + b.toNat

/-- The steps put what the bytes stand for behind the start. -/
theorem foldl_wideHashStep (bytes : List UInt8) (n : Nat) :
    bytes.foldl wideHashStep n = n * 33 ^ bytes.length + byteValue bytes := by
  induction bytes generalizing n with
  | nil => simp [byteValue]
  | cons b bytes ih =>
      rw [List.foldl_cons, ih, wideHashStep, byteValue_cons, List.length_cons, pow_succ']
      ring

/-- The hash of a key before any reduction. -/
def wideHash (key : String) : Nat := (utf8Bytes key).foldl wideHashStep 5381

theorem wideHash_eq (key : String) :
    wideHash key = 5381 * 33 ^ (utf8Bytes key).length + byteValue (utf8Bytes key) :=
  foldl_wideHashStep _ _

theorem wideHash_append (u v : String) :
    wideHash (u ++ v) =
      wideHash u * 33 ^ (utf8Bytes v).length + byteValue (utf8Bytes v) := by
  rw [wideHash, utf8Bytes_append, List.foldl_append, foldl_wideHashStep]
  rfl

/-! ### Reduction -/

/-- Reducing at every step comes to the same as reducing once. -/
theorem toNat_foldl_hashStep (bytes : List UInt8) {h : UInt32} {n : Nat}
    (hn : h.toNat = n % 2 ^ 32) :
    (bytes.foldl hashStep h).toNat = bytes.foldl wideHashStep n % 2 ^ 32 := by
  induction bytes generalizing h n with
  | nil => exact hn
  | cons b bytes ih =>
      have hbase : (33 : UInt32).toNat = 33 := rfl
      apply ih
      rw [hashStep, wideHashStep, UInt32.toNat_add, UInt32.toNat_mul, hn, UInt8.toNat_toUInt32,
        hbase]
      omega

theorem toNat_hashKey (key : String) : (hashKey key).toNat = wideHash key % 2 ^ 32 :=
  toNat_foldl_hashStep (utf8Bytes key) rfl

/-- The hash of two keys put together. -/
theorem toNat_hashKey_append (u v : String) :
    ((hashKey (u ++ v)).toNat : Int) =
      ((hashKey u).toNat * 33 ^ (utf8Bytes v).length + (hashKey v).toNat -
        5381 * 33 ^ (utf8Bytes v).length) % 2 ^ 32 := by
  have hreduced (key : String) : ((hashKey key).toNat : Int) ≡ wideHash key [ZMOD 2 ^ 32] := by
    rw [toNat_hashKey]
    exact_mod_cast Nat.mod_modEq _ _
  have hwide : ((wideHash (u ++ v) : Nat) : Int) =
      wideHash u * 33 ^ (utf8Bytes v).length + wideHash v -
        5381 * 33 ^ (utf8Bytes v).length := by
    rw [wideHash_append, wideHash_eq v]
    push_cast
    ring
  have hsum := (((hreduced u).mul_right (33 ^ (utf8Bytes v).length)).add (hreduced v)).sub_right
    (5381 * 33 ^ (utf8Bytes v).length)
  rw [hsum, ← hwide, toNat_hashKey]
  norm_cast

/-! ### Collisions -/

/-- What is put behind keys of one hash leaves them with one hash. -/
theorem hashKey_append_right {a b : String} (h : hashKey a = hashKey b) (v : String) :
    hashKey (a ++ v) = hashKey (b ++ v) := by
  rw [← UInt32.toNat_inj, ← Int.natCast_inj, toNat_hashKey_append, toNat_hashKey_append, h]

/-- What is put before keys of one length and one hash leaves them with one hash. -/
theorem hashKey_append_left {a b : String}
    (hlength : (utf8Bytes a).length = (utf8Bytes b).length) (h : hashKey a = hashKey b)
    (u : String) : hashKey (u ++ a) = hashKey (u ++ b) := by
  rw [← UInt32.toNat_inj, ← Int.natCast_inj, toNat_hashKey_append, toNat_hashKey_append, h,
    hlength]

/-- The hash of a key is 5381 followed by the bytes of the key, as digits to the base 33, reduced
modulo `2 ^ 32`, and whether it is reduced at every step or once makes no difference. The hash of
two keys put together is a number of their hashes and the length of the second. So two keys of one
length and one hash still have one hash with the same text before them and the same text behind
them. -/
theorem hashKey_is_one_number :
    (∀ key : String,
      let bytes := utf8Bytes key
      (hashKey key).toNat = bytes.foldl (fun n b => n * 33 + b.toNat) 5381 % 2 ^ 32 ∧
      (hashKey key).toNat = (5381 * 33 ^ bytes.length +
        ∑ i : Fin bytes.length, (bytes.get i).toNat * 33 ^ (bytes.length - 1 - i)) % 2 ^ 32) ∧
    (∀ u v : String,
      ((hashKey (u ++ v)).toNat : Int) =
        ((hashKey u).toNat * 33 ^ (utf8Bytes v).length + (hashKey v).toNat -
          5381 * 33 ^ (utf8Bytes v).length) % 2 ^ 32) ∧
    ∀ a b : String, (utf8Bytes a).length = (utf8Bytes b).length → hashKey a = hashKey b →
      ∀ u v : String, hashKey (u ++ a ++ v) = hashKey (u ++ b ++ v) := by
  refine ⟨?_, toNat_hashKey_append, ?_⟩
  · intro key bytes
    refine ⟨toNat_hashKey key, ?_⟩
    rw [toNat_hashKey, wideHash_eq]
    rfl
  · intro a b hlength h u v
    exact hashKey_append_right (hashKey_append_left hlength h u) v

example : hashKey "Ez" = hashKey "FY" ∧ hashKey "plant Ez." = hashKey "plant FY." := by decide

end PlantStore
