import Mathlib.Order.Compare
import Mathlib.Tactic.Linarith
import Mathlib.Tactic.Positivity
import PlantStore.Proofs.Json.Written

/-! # Decimals that round to a double

A double stands for a rational number, and the numbers that round to it fill the interval between
the midpoints to its two neighbours. The shortest decimal lies in that interval. It depends on
the rule for ties only if the double is exactly half-way between two neighbouring decimals. -/

namespace PlantStore

/-! ### Magnitudes as numbers -/

namespace Binary64.Magnitude

/-- The number that a magnitude stands for. -/
def value (x : Magnitude) : ℚ := x.m * (2 : ℚ) ^ x.q

/-- The midpoint to the neighbour below. -/
def lower (x : Magnitude) : ℚ := (x.m - if x.narrowBelow then 1 / 4 else 1 / 2) * (2 : ℚ) ^ x.q

/-- The midpoint to the neighbour above. -/
def upper (x : Magnitude) : ℚ := (x.m + 1 / 2) * (2 : ℚ) ^ x.q

/-- A number rounds to a magnitude if it lies between the two midpoints, or on one of them if the
significand is even. -/
def Rounds (x : Magnitude) (r : ℚ) : Prop :=
  (x.lower < r ∨ x.m % 2 = 0 ∧ x.lower = r) ∧ (r < x.upper ∨ x.m % 2 = 0 ∧ r = x.upper)

/-- A magnitude rounds to itself. -/
theorem rounds_value (x : Magnitude) : x.Rounds x.value := by
  have hpower : (0 : ℚ) < 2 ^ x.q := zpow_pos (by norm_num) _
  refine ⟨.inl (mul_lt_mul_of_pos_right ?_ hpower), .inl (mul_lt_mul_of_pos_right ?_ hpower)⟩
  · split <;> linarith
  · linarith

end Binary64.Magnitude

namespace Decimal

/-! ### Comparing exactly -/

/-- A power with an integer exponent, over naturals. -/
theorem zpow_mul_toNat {b : ℚ} (hb : b ≠ 0) (i : Int) : b ^ i * b ^ (-i).toNat = b ^ i.toNat := by
  rw [← zpow_natCast, ← zpow_natCast, ← zpow_add₀ hb]
  congr 1
  omega

/-- The comparison over naturals is that of the numbers. -/
theorem compareScaled_eq_cmp (a : Nat) (i : Int) (n : Nat) (j : Int) :
    compareScaled a i n j = cmp ((a : ℚ) * 10 ^ i) (n * 2 ^ j) := by
  -- Both numbers are scaled by the powers that make them whole.
  have hc : (0 : ℚ) < 10 ^ (-i).toNat * 2 ^ (-j).toNat := by positivity
  have hleft : (a : ℚ) * 10 ^ i * (10 ^ (-i).toNat * 2 ^ (-j).toNat) =
      ((a * 10 ^ i.toNat * 2 ^ (-j).toNat : Nat) : ℚ) := by
    push_cast
    rw [← zpow_mul_toNat (by norm_num : (10 : ℚ) ≠ 0) i]
    ring
  have hright : (n : ℚ) * 2 ^ j * (10 ^ (-i).toNat * 2 ^ (-j).toNat) =
      ((n * 2 ^ j.toNat * 10 ^ (-i).toNat : Nat) : ℚ) := by
    push_cast
    rw [← zpow_mul_toNat (by norm_num : (2 : ℚ) ≠ 0) j]
    ring
  rw [compareScaled, Nat.pow_eq, Nat.pow_eq, Nat.pow_eq, Nat.pow_eq,
    ← (strictMono_mul_right_of_pos hc).cmp_map_eq, hleft, hright,
    Nat.strictMono_cast.cmp_map_eq, cmp_eq_compare]

/-- A decimal reads back exactly if it rounds to the magnitude. -/
theorem readsBack_iff {x : Binary64.Magnitude} (hx : x.m ≠ 0) (d : Decimal) :
    readsBack x d = true ↔ x.Rounds d.value := by
  have hlow : (((4 * x.m - if x.narrowBelow then 1 else 2 : Nat) : ℚ)) * 2 ^ (x.q - 2) =
      x.lower := by
    rw [Binary64.Magnitude.lower, zpow_sub₀ (by norm_num)]
    split
    · rw [Nat.cast_sub (by omega)]
      push_cast
      ring
    · rw [Nat.cast_sub (by omega)]
      push_cast
      ring
  have hhigh : ((4 * x.m + 2 : Nat) : ℚ) * 2 ^ (x.q - 2) = x.upper := by
    rw [Binary64.Magnitude.upper, zpow_sub₀ (by norm_num)]
    push_cast
    ring
  -- The midpoints are quarters of a step apart, which is why the exponent is taken down by two.
  rw [readsBack, compareScaled_eq_cmp, compareScaled_eq_cmp, hlow, hhigh]
  show ((cmp d.value x.lower == .gt || (x.m % 2 == 0 && cmp d.value x.lower == .eq)) &&
    (cmp d.value x.upper == .lt || (x.m % 2 == 0 && cmp d.value x.upper == .eq))) = true ↔ _
  rw [Bool.and_eq_true, Bool.or_eq_true, Bool.or_eq_true, Bool.and_eq_true, Bool.and_eq_true,
    beq_iff_eq, beq_iff_eq, beq_iff_eq, beq_iff_eq, beq_iff_eq, cmp_eq_gt_iff, cmp_eq_eq_iff,
    cmp_eq_lt_iff, cmp_eq_eq_iff, eq_comm (a := d.value) (b := x.lower)]
  rfl

/-! ### The search -/

theorem value_stripZeros (d : Decimal) : d.stripZeros.value = d.value := by
  induction hn : d.digits using Nat.strongRecOn generalizing d with
  | ind n ih =>
      rw [stripZeros]
      split
      next hzeros =>
        rw [ih (d.digits / 10) (by omega) ⟨d.digits / 10, d.exponent + 1⟩ rfl, value, value,
          zpow_add_one₀ (by norm_num)]
        have hwhole : d.digits = d.digits / 10 * 10 := by omega
        have hdigits : (d.digits : ℚ) = ((d.digits / 10 : Nat) : ℚ) * 10 := by exact_mod_cast hwhole
        rw [hdigits]
        ring
      · rfl

theorem value_exact (x : Binary64.Magnitude) : (exact x).value = x.value := by
  rw [value, exact, Binary64.Magnitude.value, Nat.pow_eq, Nat.pow_eq]
  split
  next hq =>
    have hwhole : x.q.toNat = 0 := by omega
    have hpower : (5 : ℚ) ^ (-x.q).toNat * 10 ^ x.q = 2 ^ x.q := by
      have hten : (10 : ℚ) = 5 * 2 := by norm_num
      rw [hten, mul_zpow, ← mul_assoc, mul_comm _ ((5 : ℚ) ^ x.q),
        zpow_mul_toNat (by norm_num), hwhole, pow_zero, one_mul]
    push_cast
    rw [hwhole, pow_zero, mul_one, mul_assoc, hpower]
  next hq =>
    have hfraction : (-x.q).toNat = 0 := by omega
    rw [hfraction, pow_zero, mul_one, zpow_zero, mul_one, Nat.cast_mul, Nat.cast_pow,
      Nat.cast_ofNat, ← zpow_natCast, Int.toNat_of_nonneg (by omega)]

/-- What is chosen on a grid reads back, whatever the rule for ties. -/
theorem readsBack_of_onGrid {tie : Tie} {x : Binary64.Magnitude} {k : Int} {d : Decimal}
    (h : onGrid tie x k = some d) : readsBack x d = true := by
  rw [onGrid] at h
  split at h
  next hbelow habove =>
    obtain rfl := Option.some.inj h
    unfold nearer
    split
    · exact hbelow
    · exact habove
    · exact habove
    · split
      · exact hbelow
      · exact habove
  next hbelow habove =>
    obtain rfl := Option.some.inj h
    exact hbelow
  next hbelow habove =>
    obtain rfl := Option.some.inj h
    exact habove
  · cases h

/-- The shortest decimal rounds to the magnitude that it is written for. -/
theorem rounds_shortest (tie : Tie) (x : Binary64.Magnitude) :
    x.Rounds (shortest tie x).value := by
  by_cases hx : x.m = 0
  · have hzero : (shortest tie x).value = x.value := by
      rw [shortest, if_pos hx, value, Binary64.Magnitude.value, hx, Nat.cast_zero, zero_mul,
        zero_mul]
    rw [hzero]
    exact x.rounds_value
  · rw [shortest, if_neg hx]
    dsimp only
    rw [value_stripZeros]
    cases hfound : (List.range 17).findSome? fun n : Nat =>
        onGrid tie x (leadingExponent x - (n : Int)) with
    | none =>
        rw [Option.getD_none, value_exact]
        exact x.rounds_value
    | some d =>
        obtain ⟨n, -, hn⟩ := List.exists_of_findSome?_eq_some hfound
        exact (readsBack_iff hx d).mp (readsBack_of_onGrid hn)

/-! ### Ties -/

/-- A magnitude lies half-way between the multiples `n` and `n + 1` of a power of ten, of which
the lower one is even. -/
structure Halfway (x : Binary64.Magnitude) (n : Nat) (k : Int) : Prop where
  even : n % 2 = 0
  value_eq : x.value = (n + 1 / 2) * (10 : ℚ) ^ k

/-- The two rules for ties choose alike on a grid, or the magnitude is half-way. -/
theorem onGrid_cases (x : Binary64.Magnitude) (k : Int) :
    onGrid .up x k = onGrid .toEven x k ∨
    ∃ n, Halfway x n k ∧ onGrid .up x k = some ⟨n + 1, k⟩ ∧
      onGrid .toEven x k = some ⟨n, k⟩ := by
  simp only [onGrid]
  split
  -- Only if both neighbours read back is there a choice, and only on a tie do the rules differ.
  · cases hcompare : compareScaled (2 * gridFloor x k + 1) k (2 * x.m) x.q with
    | gt =>
        left
        unfold nearer
        rw [hcompare]
    | lt =>
        left
        unfold nearer
        rw [hcompare]
    | eq =>
        by_cases heven : gridFloor x k % 2 = 0
        · refine .inr ⟨gridFloor x k, ⟨heven, ?_⟩, ?_, ?_⟩
          · rw [compareScaled_eq_cmp, cmp_eq_eq_iff] at hcompare
            push_cast at hcompare
            rw [Binary64.Magnitude.value]
            linarith
          · simp only [nearer, hcompare]
          · simp only [nearer, hcompare, if_pos heven]
        · exact .inl (by simp only [nearer, hcompare, if_neg heven])
  · exact .inl rfl
  · exact .inl rfl
  · exact .inl rfl

/-- The two rules for ties find the same decimal, or stop at a grid where the magnitude is
half-way. -/
theorem found_cases (x : Binary64.Magnitude) (grids : List Int) :
    grids.findSome? (onGrid .up x) = grids.findSome? (onGrid .toEven x) ∨
    ∃ n k, Halfway x n k ∧ grids.findSome? (onGrid .up x) = some ⟨n + 1, k⟩ ∧
      grids.findSome? (onGrid .toEven x) = some ⟨n, k⟩ := by
  induction grids with
  | nil => exact .inl rfl
  | cons k grids ih =>
      rw [List.findSome?_cons, List.findSome?_cons]
      rcases onGrid_cases x k with hsame | ⟨n, hhalf, hup, heven⟩
      · rw [hsame]
        cases onGrid .toEven x k with
        | none => exact ih
        | some d => exact .inl rfl
      · rw [hup, heven]
        exact .inr ⟨n, k, hhalf, rfl, rfl⟩

/-- The shortest decimal of a magnitude other than zero is the first one found on the grids from
one digit on. -/
theorem shortest_eq_stripZeros (tie : Tie) {x : Binary64.Magnitude} (hx : x.m ≠ 0) :
    shortest tie x =
      ((((List.range 17).map fun n : Nat => leadingExponent x - (n : Int)).findSome?
        (onGrid tie x)).getD (exact x)).stripZeros := by
  rw [shortest, if_neg hx, List.findSome?_map]
  rfl

theorem value_shortest (tie : Tie) {x : Binary64.Magnitude} (hx : x.m ≠ 0) :
    (shortest tie x).value =
      ((((List.range 17).map fun n : Nat => leadingExponent x - (n : Int)).findSome?
        (onGrid tie x)).getD (exact x)).value := by
  rw [shortest_eq_stripZeros tie hx, value_stripZeros]

/-- The rule for ties makes no difference to the shortest decimal, unless the magnitude is
half-way between two neighbours. Then the two rules give the two neighbours, and the upper one has
no zero at the end. -/
theorem shortest_cases (x : Binary64.Magnitude) :
    (shortest .up x).value = (shortest .toEven x).value ∨
    ∃ n k, Halfway x n k ∧ shortest .up x = ⟨n + 1, k⟩ ∧
      (shortest .toEven x).value = n * (10 : ℚ) ^ k := by
  by_cases hx : x.m = 0
  · left
    rw [shortest, shortest, if_pos hx, if_pos hx]
  rcases found_cases x ((List.range 17).map fun n : Nat => leadingExponent x - (n : Int)) with
    hsame | ⟨n, k, hhalf, hup, heven⟩
  · left
    rw [value_shortest .up hx, value_shortest .toEven hx, hsame]
  · refine .inr ⟨n, k, hhalf, ?_, ?_⟩
    · have hodd : (n + 1) % 10 ≠ 0 := by
        have hn := hhalf.even
        omega
      rw [shortest_eq_stripZeros .up hx, hup, Option.getD_some, stripZeros,
        if_neg fun hzeros => hodd hzeros.2]
    · rw [value_shortest .toEven hx, heven, Option.getD_some, value]

end Decimal

end PlantStore
