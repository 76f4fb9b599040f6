import Mathlib.Algebra.Order.Group.Abs
import Mathlib.Order.Monotone.Basic
import PlantStore.Proofs.Decimal.Rounding

/-! # The nearest double

The doubles of one sign, ordered by size, are numbered by their bits without the sign. From one to
the next the significand goes up by one, until a power of two is reached and the steps double. So
the numbers between the two midpoints of a double are those to which it is nearest, and of two doubles
that are equally near one is even and the other is not. A numeral is read as one double, sign
included. -/

namespace PlantStore
namespace Binary64

/-! ### Doubles by size -/

/-- The place of a double among those of its sign. -/
def ordinal (d : Binary64) : Nat := d.bits.toNat % 2 ^ 63

/-- The place of the infinite doubles, behind all finite ones. -/
def infinite : Nat := 2047 * 2 ^ 52

namespace Magnitude

/-- The magnitude with given fields. -/
def ofFields (exponent fraction : Nat) : Magnitude :=
  if exponent = 0 then ⟨fraction, -1074, false⟩
  else ⟨2 ^ 52 + fraction, (exponent : Int) - 1075, fraction == 0 && 1 < exponent⟩

/-- The magnitude of the doubles at a place. -/
def ofOrdinal (n : Nat) : Magnitude := ofFields (n / 2 ^ 52) (n % 2 ^ 52)

/-- From one place to the next the significand goes up by one, or starts again with half as many
steps of twice the size. -/
theorem ofOrdinal_succ (n : Nat) :
    ((ofOrdinal (n + 1)).narrowBelow = false ∧ (ofOrdinal (n + 1)).m = (ofOrdinal n).m + 1 ∧
      (ofOrdinal (n + 1)).q = (ofOrdinal n).q) ∨
    ((ofOrdinal (n + 1)).narrowBelow = true ∧ (ofOrdinal n).m = 2 ^ 53 - 1 ∧
      (ofOrdinal (n + 1)).m = 2 ^ 52 ∧ (ofOrdinal (n + 1)).q = (ofOrdinal n).q + 1) := by
  rw [ofOrdinal, ofOrdinal]
  by_cases hlast : n % 2 ^ 52 = 2 ^ 52 - 1
  · have hfraction : (n + 1) % 2 ^ 52 = 0 := by omega
    have hexponent : (n + 1) / 2 ^ 52 = n / 2 ^ 52 + 1 := by omega
    rw [hfraction, hexponent, hlast]
    generalize n / 2 ^ 52 = exponent
    -- The smallest exponent belongs to the subnormal numbers, whose steps are those of the next.
    cases exponent with
    | zero =>
        left
        simp [ofFields]
    | succ exponent =>
        right
        simp [ofFields]
        omega
  · have hfraction : (n + 1) % 2 ^ 52 = n % 2 ^ 52 + 1 := by omega
    have hexponent : (n + 1) / 2 ^ 52 = n / 2 ^ 52 := by omega
    left
    rw [hfraction, hexponent]
    generalize n / 2 ^ 52 = exponent
    cases exponent with
    | zero => simp [ofFields]
    | succ exponent =>
        simp [ofFields]
        rfl

theorem m_ofOrdinal_mod (n : Nat) : (ofOrdinal n).m % 2 = n % 2 := by
  rw [ofOrdinal, ofFields]
  split <;> dsimp only <;> omega

/-- The values grow by one unit from one place to the next. -/
theorem value_ofOrdinal_succ (n : Nat) :
    (ofOrdinal (n + 1)).value = (ofOrdinal n).value + 2 ^ (ofOrdinal n).q := by
  rw [value, value]
  rcases ofOrdinal_succ n with ⟨-, hm, hq⟩ | ⟨-, hm, hm', hq⟩
  · rw [hm, hq]
    push_cast
    ring
  · rw [hm, hm', hq, zpow_add_one₀ (by norm_num)]
    push_cast
    ring

theorem value_strictMono : StrictMono fun n => (ofOrdinal n).value := by
  apply strictMono_nat_of_lt_succ
  intro n
  rw [value_ofOrdinal_succ]
  have hunit : (0 : ℚ) < 2 ^ (ofOrdinal n).q := zpow_pos (by norm_num) _
  linarith

/-- The upper end of what rounds to a double is half-way to the next. -/
theorem upper_ofOrdinal (n : Nat) :
    (ofOrdinal n).upper = ((ofOrdinal n).value + (ofOrdinal (n + 1)).value) / 2 := by
  rw [value_ofOrdinal_succ, upper, value]
  ring

/-- The lower end of what rounds to a double is half-way to the one before. -/
theorem lower_ofOrdinal (n : Nat) :
    (ofOrdinal (n + 1)).lower = ((ofOrdinal n).value + (ofOrdinal (n + 1)).value) / 2 := by
  rw [value_ofOrdinal_succ, lower, value]
  rcases ofOrdinal_succ n with ⟨hnarrow, hm, hq⟩ | ⟨hnarrow, hm, hm', hq⟩
  · rw [hnarrow, hm, hq, if_neg Bool.false_ne_true]
    push_cast
    ring
  · rw [hnarrow, hm, hm', hq, if_pos rfl, zpow_add_one₀ (by norm_num)]
    push_cast
    ring

theorem lower_ofOrdinal_zero : (ofOrdinal 0).lower < 0 := by
  have hunit : (0 : ℚ) < 2 ^ (ofOrdinal 0).q := zpow_pos (by norm_num) _
  apply mul_neg_of_neg_of_pos _ hunit
  norm_num [ofOrdinal, ofFields]

end Magnitude

open Magnitude (ofOrdinal)

/-! ### Bits and places -/

theorem magnitude_eq (d : Binary64) : d.magnitude = ofOrdinal d.ordinal := by
  have hexponent : d.ordinal / 2 ^ 52 = d.exponentField := by
    rw [ordinal, exponentField, Nat.pow_eq, Nat.pow_eq]
    omega
  have hfraction : d.ordinal % 2 ^ 52 = d.fractionField := by
    rw [ordinal, fractionField, Nat.pow_eq]
    omega
  rw [Magnitude.ofOrdinal, hexponent, hfraction]
  rfl

theorem isFinite_iff {d : Binary64} : d.isFinite = true ↔ d.ordinal < infinite := by
  rw [isFinite, bne_iff_ne, exponentField, ordinal, infinite, Nat.pow_eq, Nat.pow_eq]
  omega

theorem isNaN_eq_false_iff {d : Binary64} : d.isNaN = false ↔ d.ordinal ≤ infinite := by
  have hfraction : d.fractionField = d.ordinal % 2 ^ 52 := by
    rw [ordinal, fractionField, Nat.pow_eq]
    omega
  have hbound : d.ordinal < 2 ^ 63 := Nat.mod_lt _ (by norm_num)
  rw [isNaN, hfraction]
  cases hfinite : d.isFinite with
  | true =>
      rw [isFinite_iff] at hfinite
      simpa using hfinite.le
  | false =>
      rw [← Bool.not_eq_true, isFinite_iff] at hfinite
      rw [infinite] at hfinite ⊢
      simp
      omega

/-- Every place up to that of the infinite doubles is the place of a double. -/
theorem ordinal_ofNat {n : Nat} (h : n ≤ infinite) : ordinal ⟨.ofNat n⟩ = n := by
  rw [infinite] at h
  have hword : n < 2 ^ 64 := by omega
  rw [ordinal, UInt64.toNat_ofNat_of_lt' hword]
  omega

theorem isNegative_iff {d : Binary64} : d.isNegative = true ↔ 2 ^ 63 ≤ d.bits.toNat := by
  have hshift : (d.bits >>> 63).toNat = d.bits.toNat / 2 ^ 63 := by
    rw [UInt64.toNat_shiftRight, Nat.shiftRight_eq_div_pow]
    rfl
  have hbound := d.bits.toNat_lt
  rw [isNegative, beq_iff_eq, ← UInt64.toNat_inj, hshift]
  show d.bits.toNat / 2 ^ 63 = 1 ↔ _
  omega

/-- A double is given by its sign and its place. -/
theorem eq_of_ordinal_eq {d e : Binary64} (hsign : d.isNegative = e.isNegative)
    (h : d.ordinal = e.ordinal) : d = e := by
  have hiff : 2 ^ 63 ≤ d.bits.toNat ↔ 2 ^ 63 ≤ e.bits.toNat := by
    rw [← isNegative_iff, ← isNegative_iff, hsign]
  have hd := d.bits.toNat_lt
  have he := e.bits.toNat_lt
  have hbits : d.bits.toNat = e.bits.toNat := by
    rw [ordinal, ordinal] at h
    omega
  cases d
  cases e
  exact congrArg mk (UInt64.toNat_inj.mp hbits)

/-! ### Rounding -/

/-- A number that is not negative rounds to a double: no other is nearer, where an infinite double
counts as the number that would come next, `2 ^ 1024`; and if another is equally near, then the
double is the even one of the two. -/
structure IsNearest (d : Binary64) (r : ℚ) : Prop where
  number : d.isNaN = false
  nearest : ∀ e : Binary64, e.isNaN = false →
    |r - d.magnitude.value| ≤ |r - e.magnitude.value|
  even : ∀ e : Binary64, e.isNaN = false → e.magnitude.value ≠ d.magnitude.value →
    |r - e.magnitude.value| = |r - d.magnitude.value| → d.magnitude.m % 2 = 0

/-- The doubles may be counted by their places. -/
theorem isNearest_iff_ordinals {d : Binary64} {r : ℚ} :
    d.IsNearest r ↔ d.ordinal ≤ infinite ∧ ∀ n ≤ infinite,
      |r - (ofOrdinal d.ordinal).value| ≤ |r - (ofOrdinal n).value| ∧
      (n ≠ d.ordinal → |r - (ofOrdinal n).value| = |r - (ofOrdinal d.ordinal).value| →
        d.ordinal % 2 = 0) := by
  constructor
  · intro h
    refine ⟨isNaN_eq_false_iff.mp h.number, fun n hn => ?_⟩
    have hplace := ordinal_ofNat hn
    have hnumber : isNaN ⟨.ofNat n⟩ = false := isNaN_eq_false_iff.mpr (hplace.symm ▸ hn)
    have hnear := h.nearest _ hnumber
    have heven := h.even _ hnumber
    rw [magnitude_eq, magnitude_eq, hplace] at hnear heven
    refine ⟨hnear, fun hne heq => ?_⟩
    rw [← Magnitude.m_ofOrdinal_mod]
    exact heven (Magnitude.value_strictMono.injective.ne hne) heq
  · rintro ⟨hplace, h⟩
    refine ⟨isNaN_eq_false_iff.mpr hplace, fun e he => ?_, fun e he hne heq => ?_⟩
    · rw [magnitude_eq, magnitude_eq]
      exact (h e.ordinal (isNaN_eq_false_iff.mp he)).1
    · rw [magnitude_eq, magnitude_eq] at hne heq
      rw [magnitude_eq, Magnitude.m_ofOrdinal_mod]
      exact (h e.ordinal (isNaN_eq_false_iff.mp he)).2 (fun hsame => hne (by rw [hsame])) heq

/-! ### Midpoints -/

section

variable {r a b : ℚ}

/-- The lesser of two numbers is not farther up to half-way between them. -/
theorem abs_sub_le_iff_le_midpoint (h : a < b) : |r - a| ≤ |r - b| ↔ r ≤ (a + b) / 2 := by
  have hdiff : (r - b) ^ 2 - (r - a) ^ 2 = (b - a) * (a + b - 2 * r) := by ring
  rw [← sq_le_sq, ← sub_nonneg, hdiff, mul_nonneg_iff_of_pos_left (sub_pos.mpr h)]
  constructor <;> intro hle <;> linarith

/-- The greater of two numbers is not farther from half-way between them on. -/
theorem abs_sub_le_iff_midpoint_le (h : a < b) : |r - b| ≤ |r - a| ↔ (a + b) / 2 ≤ r := by
  have hdiff : (r - a) ^ 2 - (r - b) ^ 2 = (b - a) * (2 * r - (a + b)) := by ring
  rw [← sq_le_sq, ← sub_nonneg, hdiff, mul_nonneg_iff_of_pos_left (sub_pos.mpr h)]
  constructor <;> intro hle <;> linarith

theorem abs_sub_eq_iff_midpoint (h : a < b) : |r - a| = |r - b| ↔ r = (a + b) / 2 := by
  rw [le_antisymm_iff, abs_sub_le_iff_le_midpoint h, abs_sub_le_iff_midpoint_le h,
    le_antisymm_iff]

end

/-- No midpoint to a double below is above the lower end. -/
theorem midpoint_le_lower {k n : Nat} (h : k < n) :
    ((ofOrdinal k).value + (ofOrdinal n).value) / 2 ≤ (ofOrdinal n).lower := by
  obtain ⟨n, rfl⟩ := Nat.exists_eq_add_one_of_ne_zero (Nat.ne_zero_of_lt h)
  have hle := Magnitude.value_strictMono.monotone (Nat.le_of_lt_succ h)
  rw [Magnitude.lower_ofOrdinal]
  linarith

/-- No midpoint to a double above is below the upper end. -/
theorem upper_le_midpoint {n k : Nat} (h : n < k) :
    (ofOrdinal n).upper ≤ ((ofOrdinal n).value + (ofOrdinal k).value) / 2 := by
  have hle := Magnitude.value_strictMono.monotone (Nat.succ_le_of_lt h)
  rw [Magnitude.upper_ofOrdinal]
  linarith

/-- The numbers to which a double is nearest are those between its two midpoints. -/
theorem isNearest_iff_rounds {d : Binary64} (hfinite : d.isFinite = true) {r : ℚ} (hr : 0 ≤ r) :
    d.IsNearest r ↔ d.magnitude.Rounds r := by
  have hplace : d.ordinal < infinite := isFinite_iff.mp hfinite
  have hmono := Magnitude.value_strictMono
  rw [isNearest_iff_ordinals, magnitude_eq, Magnitude.Rounds, Magnitude.m_ofOrdinal_mod]
  generalize d.ordinal = n at hplace ⊢
  constructor
  · rintro ⟨-, h⟩
    constructor
    · cases n with
      | zero => exact .inl (Magnitude.lower_ofOrdinal_zero.trans_le hr)
      | succ n =>
          have hlt := hmono (Nat.lt_succ_self n)
          obtain ⟨hnear, heven⟩ := h n (by omega)
          rw [Magnitude.lower_ofOrdinal]
          rcases ((abs_sub_le_iff_midpoint_le hlt).mp hnear).lt_or_eq with habove | htie
          · exact .inl habove
          · have hequal := (abs_sub_eq_iff_midpoint hlt).mpr htie.symm
            exact .inr ⟨heven (Nat.succ_ne_self n).symm hequal, htie⟩
    · have hlt := hmono (Nat.lt_succ_self n)
      obtain ⟨hnear, heven⟩ := h (n + 1) hplace
      rw [Magnitude.upper_ofOrdinal]
      rcases ((abs_sub_le_iff_le_midpoint hlt).mp hnear).lt_or_eq with hbelow | htie
      · exact .inl hbelow
      · have hequal := (abs_sub_eq_iff_midpoint hlt).mpr htie
        exact .inr ⟨heven (Nat.succ_ne_self n) hequal.symm, htie⟩
  · rintro ⟨hlow, hhigh⟩
    refine ⟨hplace.le, fun k _ => ?_⟩
    -- A double further off lies beyond the neighbour on its side, so the midpoint to it does too.
    rcases lt_trichotomy k n with hk | rfl | hk
    · have hend := midpoint_le_lower hk
      constructor
      · apply (abs_sub_le_iff_midpoint_le (hmono hk)).mpr
        exact hend.trans (hlow.elim le_of_lt fun h => h.2.le)
      · intro _ hequal
        have htie := (abs_sub_eq_iff_midpoint (hmono hk)).mp hequal
        exact (hlow.resolve_left (by rw [htie]; exact hend.not_gt)).1
    · exact ⟨le_rfl, fun hne => absurd rfl hne⟩
    · have hend := upper_le_midpoint hk
      constructor
      · apply (abs_sub_le_iff_le_midpoint (hmono hk)).mpr
        exact (hhigh.elim le_of_lt fun h => h.2.le).trans hend
      · intro _ hequal
        have htie := (abs_sub_eq_iff_midpoint (hmono hk)).mp hequal.symm
        exact (hhigh.resolve_left (by rw [htie]; exact hend.not_gt)).1

/-- A number rounds to one double of a sign. -/
theorem IsNearest.unique {d e : Binary64} {r : ℚ} (hd : d.IsNearest r) (he : e.IsNearest r) :
    d.ordinal = e.ordinal := by
  wlog hlt : d.ordinal < e.ordinal generalizing d e
  · by_contra hne
    exact hne (this he hd (by omega)).symm
  obtain ⟨-, hd⟩ := isNearest_iff_ordinals.mp hd
  obtain ⟨hplace, he⟩ := isNearest_iff_ordinals.mp he
  have hmono := Magnitude.value_strictMono
  -- Both are equally near, so both are even and there is another one between them, which is nearer.
  obtain ⟨hnear, hdeven⟩ := hd e.ordinal hplace
  obtain ⟨hnear', heeven⟩ := he d.ordinal (by omega)
  have hequal := hnear.antisymm hnear'
  have hgap : d.ordinal + 1 < e.ordinal := by
    have := hdeven (by omega) hequal.symm
    have := heeven (by omega) hequal
    omega
  have hbetween := (abs_sub_le_iff_le_midpoint (hmono (Nat.lt_succ_self d.ordinal))).mp
    (hd (d.ordinal + 1) (by omega)).1
  have hmiddle := (abs_sub_eq_iff_midpoint (hmono hlt)).mp hequal
  have hless := hmono hgap
  dsimp only at hless
  linarith

end Binary64

/-! ### Reading numerals -/

/-- A numeral is read as a double of its sign to which its size rounds. The sign is that of the
text, since zero has two forms. -/
structure Numeral.ReadsAs (n : Numeral) (d : Binary64) : Prop where
  sign : n.negative = d.isNegative
  nearest : d.IsNearest |n.value|

/-- A numeral is read as one double only. -/
theorem Numeral.ReadsAs.unique {n : Numeral} {d e : Binary64} (hd : n.ReadsAs d)
    (he : n.ReadsAs e) : d = e :=
  Binary64.eq_of_ordinal_eq (hd.sign.symm.trans he.sign) (hd.nearest.unique he.nearest)

end PlantStore
