import Mathlib.Algebra.Order.Field.Power
import Mathlib.Data.List.DropRight
import PlantStore.Proofs.Json.Written

/-! # Significant digits

Zeros in front of the first other digit and behind the last one only say where the point is. The
digits between them are a whole number, which the numeral stands for up to a power of ten and its
sign. In every layout the numeral of a decimal has no more of them than the decimal has digits. -/

namespace PlantStore

namespace Text

/-! ### Zeros around digits -/

/-- Digits without the zeros in front and behind. -/
def trimZeros (ds : List Char) : List Char := (ds.dropWhile (· == '0')).rdropWhile (· == '0')

/-- Digits between zeros. -/
def padZeros (front : Nat) (ds : List Char) (behind : Nat) : List Char :=
  List.replicate front '0' ++ (ds ++ List.replicate behind '0')

/-- What is taken off are zeros. -/
theorem exists_padZeros_trimZeros (ds : List Char) :
    ∃ front behind, ds = padZeros front (trimZeros ds) behind := by
  have hfront : ds.takeWhile (· == '0') =
      List.replicate (ds.takeWhile (· == '0')).length '0' :=
    List.eq_replicate_of_mem fun c hc => by simpa using List.mem_takeWhile_imp hc
  have hbehind : (ds.dropWhile (· == '0')).rtakeWhile (· == '0') =
      List.replicate ((ds.dropWhile (· == '0')).rtakeWhile (· == '0')).length '0' :=
    List.eq_replicate_of_mem fun c hc => by simpa using List.mem_rtakeWhile_imp hc
  refine ⟨(ds.takeWhile (· == '0')).length,
    ((ds.dropWhile (· == '0')).rtakeWhile (· == '0')).length, ?_⟩
  rw [padZeros, ← hfront, ← hbehind, trimZeros, List.rdropWhile_append_rtakeWhile,
    List.takeWhile_append_dropWhile]

theorem zeros_are_zero {n : Nat} : ∀ c ∈ List.replicate n '0', (c == '0') = true := by
  intro c hc
  rw [List.eq_of_mem_replicate hc, beq_self_eq_true]

/-- Zeros around digits make no difference to what is left of them. -/
theorem trimZeros_padZeros (front : Nat) (ds : List Char) (behind : Nat) :
    trimZeros (padZeros front ds behind) = trimZeros ds := by
  rw [trimZeros, trimZeros, padZeros, List.dropWhile_append_of_pos zeros_are_zero,
    List.dropWhile_append]
  split
  next hempty =>
    have hzeros : (List.replicate behind '0').dropWhile (· == '0') = [] :=
      List.dropWhile_eq_nil_iff.mpr zeros_are_zero
    rw [hzeros, List.isEmpty_iff.mp hempty]
  next hrest =>
    rw [List.rdropWhile, List.reverse_append, List.reverse_replicate,
      List.dropWhile_append_of_pos zeros_are_zero, List.rdropWhile]

theorem length_trimZeros_le (ds : List Char) : (trimZeros ds).length ≤ ds.length :=
  ((List.rdropWhile_prefix _ _).length_le).trans (List.dropWhile_suffix _).length_le

/-- Digits are a number with no more digits than they are. -/
theorem ofDigitChars_lt {ds : List Char} (h : ∀ c ∈ ds, c.isDigit = true) :
    Nat.ofDigitChars 10 ds 0 < 10 ^ ds.length := by
  induction ds using List.reverseRecOn with
  | nil => simp
  | append_singleton ds c ih =>
      have hds := ih fun d hd => h d (List.mem_append_left _ hd)
      have hc : c.toNat ≤ '0'.toNat + 9 :=
        (Char.isDigit_iff_toNat.mp (h c (List.mem_append_right _ List.mem_cons_self))).2
      rw [Nat.ofDigitChars_append, Nat.ofDigitChars_cons, Nat.ofDigitChars_nil,
        List.length_append, List.length_singleton, pow_succ]
      omega

theorem ofDigitChars_padZeros (front : Nat) (ds : List Char) (behind : Nat) :
    Nat.ofDigitChars 10 (padZeros front ds behind) 0 = 10 ^ behind * Nat.ofDigitChars 10 ds 0 := by
  rw [padZeros, Nat.ofDigitChars_append, Nat.ofDigitChars_append, Nat.ofDigitChars_replicate_zero,
    Nat.ofDigitChars_replicate_zero, Nat.mul_zero]

end Text

/-! ### Numerals -/

open Text (padZeros trimZeros)

namespace Numeral

/-- The significant digits of a numeral; zero has none. -/
def significant (n : Numeral) : List Char := trimZeros (n.whole ++ n.fraction)

theorem abs_value (n : Numeral) :
    |n.value| = Nat.ofDigitChars 10 (n.whole ++ n.fraction) 0 *
      (10 : ℚ) ^ ((n.exponent.elim 0 Exponent.value : Int) - n.fraction.length) := by
  have hsign : |(if n.negative then -1 else 1 : ℚ)| = 1 := by split <;> simp
  rw [value, abs_mul, abs_mul, hsign, one_mul, Nat.abs_cast, abs_of_pos (zpow_pos (by norm_num) _)]

/-- The size of a numeral is a whole number with as many digits as are significant, times a power of
ten. -/
theorem WellFormed.exists_abs_value_eq {n : Numeral} (h : n.WellFormed) :
    ∃ (digits : Nat) (exponent : Int),
      digits < 10 ^ n.significant.length ∧ |n.value| = digits * (10 : ℚ) ^ exponent := by
  have hall : ∀ c ∈ n.whole ++ n.fraction, c.isDigit = true := by
    intro c hc
    exact (List.mem_append.mp hc).elim (h.whole.isDigits.2 c) (h.fraction c)
  obtain ⟨front, behind, hdigits⟩ :
      ∃ front behind, n.whole ++ n.fraction = padZeros front n.significant behind :=
    Text.exists_padZeros_trimZeros _
  have hsignificant : ∀ c ∈ n.significant, c.isDigit = true := by
    intro c hc
    apply hall
    rw [hdigits, padZeros]
    exact List.mem_append_right _ (List.mem_append_left _ hc)
  refine ⟨Nat.ofDigitChars 10 n.significant 0,
    behind + ((n.exponent.elim 0 Exponent.value : Int) - n.fraction.length),
    Text.ofDigitChars_lt hsignificant, ?_⟩
  rw [abs_value, hdigits, Text.ofDigitChars_padZeros, zpow_add₀ (by norm_num), zpow_natCast]
  push_cast
  ring

end Numeral

/-! ### Layouts -/

namespace Decimal.Layout

theorem exists_positionalNumeral_eq (l : Layout) (negative : Bool) (digits : List Char)
    (exponent : Int) :
    ∃ front behind, (l.positionalNumeral negative digits exponent).whole ++
      (l.positionalNumeral negative digits exponent).fraction = padZeros front digits behind := by
  rw [positionalNumeral]
  split
  · cases l.showsFraction with
    | true =>
        refine ⟨0, exponent.toNat + 1, ?_⟩
        simp [padZeros, List.replicate_succ']
    | false =>
        refine ⟨0, exponent.toNat, ?_⟩
        simp [padZeros]
  · dsimp only
    split
    · refine ⟨0, 0, ?_⟩
      simp [padZeros]
    · refine ⟨(-exponent).toNat - digits.length + 1, 0, ?_⟩
      simp [padZeros, List.replicate_succ]

/-- The digits of a numeral are those of its decimal between zeros. -/
theorem exists_numeral_eq (l : Layout) (negative : Bool) (d : Decimal) :
    ∃ front behind, (l.numeral negative d).whole ++ (l.numeral negative d).fraction =
      padZeros front (Text.decimal d.digits) behind := by
  rw [numeral]
  split
  · exact l.exists_positionalNumeral_eq negative _ _
  · refine ⟨0, 0, ?_⟩
    simp only [exponentNumeral, List.take_append_drop]
    simp [padZeros]

/-- The numeral of a decimal has no more significant digits than the decimal has digits. -/
theorem length_significant_le (l : Layout) (negative : Bool) {d : Decimal} {length : Nat}
    (h : d.digits < 10 ^ length) : (l.numeral negative d).significant.length ≤ length := by
  obtain ⟨front, behind, hdigits⟩ := l.exists_numeral_eq negative d
  rw [Numeral.significant, hdigits, Text.trimZeros_padZeros]
  cases length with
  | zero =>
      have hzero : d.digits = 0 := by simpa using h
      rw [hzero, Text.decimal_zero]
      rfl
  | succ length =>
      refine (Text.length_trimZeros_le _).trans ?_
      exact (Nat.length_toDigits_le_iff (by norm_num) (Nat.succ_pos length)).mpr h

theorem negative_numeral (l : Layout) (negative : Bool) (d : Decimal) :
    (l.numeral negative d).negative = negative := by
  rw [numeral, positionalNumeral]
  split
  · split
    · rfl
    · dsimp only
      split <;> rfl
  · rfl

/-- Without bounds nothing is written with an exponent. -/
theorem exponent_numeral {l : Layout} (h : l.positional = none) (negative : Bool) (d : Decimal) :
    (l.numeral negative d).exponent = none := by
  have hpositional : l.isPositional (d.exponent + (Text.decimal d.digits).length - 1) = true := by
    rw [isPositional, h]
  rw [numeral, if_pos hpositional, positionalNumeral]
  split
  · rfl
  · dsimp only
    split <;> rfl

end Decimal.Layout
end PlantStore
