import Mathlib.Algebra.Order.Field.Power
import PlantStore.Proofs.Decimal.Rounding

/-! # The fewest digits

The search for the shortest decimal goes through the grids of multiples of a power of ten, from the
grid of the leading digit on, and takes the first grid on which a neighbour of the double rounds to
it. If any point of a grid does, then one of the neighbours does, because it lies between that point
and the double. So a decimal that rounds to the double is never shorter than the one that is found;
and on the seventeenth grid one is always found. -/

namespace PlantStore
namespace Binary64.Magnitude

/-- Between two numbers that round to a magnitude all numbers do. -/
theorem Rounds.between {x : Magnitude} {a b c : ℚ} (ha : x.Rounds a) (hb : x.Rounds b)
    (hac : a ≤ c) (hcb : c ≤ b) : x.Rounds c := by
  constructor
  · rcases ha.1 with hlt | ⟨heven, heq⟩
    · exact .inl (hlt.trans_le hac)
    · exact (hac.lt_or_eq).imp (heq.trans_lt ·) fun h => ⟨heven, heq.trans h⟩
  · rcases hb.2 with hlt | ⟨heven, heq⟩
    · exact .inl (hcb.trans_lt hlt)
    · exact (hcb.lt_or_eq).imp (·.trans_eq heq) fun h => ⟨heven, h.trans heq⟩

/-- What the magnitudes of doubles have in common. -/
structure IsDouble (x : Magnitude) : Prop where
  m_lt : x.m < 2 ^ 53
  q_ge : -1074 ≤ x.q
  m_eq : x.narrowBelow = true → x.m = 2 ^ 52

end Binary64.Magnitude

theorem Binary64.isDouble_magnitude (d : Binary64) : d.magnitude.IsDouble := by
  have hfraction : d.fractionField < 2 ^ 52 := by
    rw [fractionField, Nat.pow_eq]
    exact Nat.mod_lt _ (by norm_num)
  rw [magnitude]
  split
  · constructor
    · dsimp only
      omega
    · simp
    · simp
  · constructor
    · dsimp only
      rw [Nat.pow_eq]
      omega
    · dsimp only
      omega
    · simp
      omega

namespace Decimal

/-- No decimal with fewer digits than a number has rounds to the magnitude. -/
def HasFewest (x : Binary64.Magnitude) (n : Nat) : Prop :=
  ∀ (digits length : Nat) (exponent : Int), digits < 10 ^ length →
    x.Rounds (digits * (10 : ℚ) ^ exponent) → n < 10 ^ length

variable {x : Binary64.Magnitude} {tie : Tie}

/-! ### Grids -/

/-- The neighbours of a magnitude on a grid. -/
theorem gridFloor_bounds (x : Binary64.Magnitude) (k : Int) :
    gridFloor x k * (10 : ℚ) ^ k ≤ x.value ∧ x.value < (gridFloor x k + 1) * (10 : ℚ) ^ k := by
  -- Both scales are cleared, so that the whole part is that of a quotient of natural numbers.
  have hc : (0 : ℚ) < 2 ^ (-x.q).toNat * 10 ^ (-k).toNat := by positivity
  have hnum : ((x.m * 2 ^ x.q.toNat * 10 ^ (-k).toNat : Nat) : ℚ) =
      x.value * (2 ^ (-x.q).toNat * 10 ^ (-k).toNat) := by
    rw [Binary64.Magnitude.value]
    push_cast
    rw [← zpow_mul_toNat (by norm_num : (2 : ℚ) ≠ 0) x.q]
    ring
  have hden : ((2 ^ (-x.q).toNat * 10 ^ k.toNat : Nat) : ℚ) =
      10 ^ k * (2 ^ (-x.q).toNat * 10 ^ (-k).toNat) := by
    push_cast
    rw [← zpow_mul_toNat (by norm_num : (10 : ℚ) ≠ 0) k]
    ring
  have hpos : 0 < 2 ^ (-x.q).toNat * 10 ^ k.toNat := by positivity
  rw [gridFloor, Nat.pow_eq, Nat.pow_eq, Nat.pow_eq, Nat.pow_eq]
  generalize x.m * 2 ^ x.q.toNat * 10 ^ (-k).toNat = num at hnum ⊢
  generalize 2 ^ (-x.q).toNat * 10 ^ k.toNat = den at hden hpos ⊢
  have hbelow : ((num / den : Nat) : ℚ) * den ≤ num := by
    exact_mod_cast Nat.div_mul_le_self num den
  have habove : (num : ℚ) < ((num / den : Nat) + 1) * den := by
    rw [mul_comm]
    exact_mod_cast Nat.lt_mul_div_succ num hpos
  rw [hnum, hden, ← mul_assoc ((num / den : Nat) : ℚ)] at hbelow
  rw [hnum, hden, ← mul_assoc (((num / den : Nat) : ℚ) + 1)] at habove
  exact ⟨le_of_mul_le_mul_right hbelow hc, lt_of_mul_lt_mul_right habove hc.le⟩

/-- If any point of a grid rounds to a magnitude, a neighbour of the magnitude does. -/
theorem onGrid_of_rounds (tie : Tie) (hx : x.m ≠ 0) {n : Nat} {k : Int}
    (h : x.Rounds (n * (10 : ℚ) ^ k)) : ∃ d, onGrid tie x k = some d := by
  have hunit : (0 : ℚ) < 10 ^ k := by positivity
  obtain ⟨hbelow, habove⟩ := gridFloor_bounds x k
  -- The points that round to a magnitude form an interval around it, so a neighbour lies between
  -- the magnitude and the given point.
  have hone : readsBack x ⟨gridFloor x k, k⟩ = true ∨
      readsBack x ⟨gridFloor x k + 1, k⟩ = true := by
    rw [readsBack_iff hx, readsBack_iff hx, value, value]
    by_cases hn : n ≤ gridFloor x k
    · left
      refine h.between x.rounds_value ?_ hbelow
      have hcast : (n : ℚ) ≤ gridFloor x k := by exact_mod_cast hn
      exact mul_le_mul_of_nonneg_right hcast hunit.le
    · right
      push_cast
      refine x.rounds_value.between h habove.le ?_
      have hcast : (gridFloor x k : ℚ) + 1 ≤ n := by exact_mod_cast Nat.lt_of_not_le hn
      exact mul_le_mul_of_nonneg_right hcast hunit.le
  rw [onGrid]
  split
  · exact ⟨_, rfl⟩
  · exact ⟨_, rfl⟩
  · exact ⟨_, rfl⟩
  next hnot hnot' =>
    rw [hnot, hnot'] at hone
    simp at hone

/-- What is found on a grid is one of the two neighbours. -/
theorem digits_onGrid_le {k : Int} {d : Decimal} (h : onGrid tie x k = some d) :
    d.digits ≤ gridFloor x k + 1 := by
  rw [onGrid] at h
  split at h
  · obtain rfl := Option.some.inj h
    show nearer tie x (gridFloor x k) k ≤ _
    unfold nearer
    split
    · omega
    · omega
    · omega
    · split <;> omega
  · obtain rfl := Option.some.inj h
    exact Nat.le_succ _
  · obtain rfl := Option.some.inj h
    exact le_rfl
  · cases h

/-! ### The leading digit -/

theorem lt_pow_digitCount (n : Nat) : n < 10 ^ digitCount n :=
  (Nat.length_toDigits_le_iff (by norm_num) Nat.length_toDigits_pos).mp le_rfl

theorem pow_le_of_digitCount {n : Nat} (h : n ≠ 0) : 10 ^ (digitCount n - 1) ≤ n := by
  by_contra hlt
  rw [not_le] at hlt
  by_cases hone : digitCount n - 1 = 0
  · rw [hone, pow_zero] at hlt
    omega
  · have hle := (Nat.length_toDigits_le_iff (by norm_num) (Nat.pos_of_ne_zero hone)).mpr hlt
    have hpos : 0 < digitCount n := Nat.length_toDigits_pos
    rw [digitCount] at hle hone hpos
    omega

/-- A double other than zero is lifted above 1. -/
theorem lift_lt_value (hx : x.IsDouble) (hm : x.m ≠ 0) : (10 : ℚ) ^ (-(lift : Int)) ≤ x.value := by
  have hone : (1 : ℚ) ≤ x.m := by exact_mod_cast Nat.one_le_iff_ne_zero.mpr hm
  have hpowers : (2 : ℚ) ^ 1074 ≤ 10 ^ 324 := by
    rw [show 1074 = 179 * 6 from rfl, show 324 = 54 * 6 from rfl, pow_mul, pow_mul]
    gcongr
    norm_num
  calc (10 : ℚ) ^ (-(lift : Int)) = (10 ^ 324)⁻¹ := by
        rw [zpow_neg, zpow_natCast]
        rfl
    _ ≤ (2 ^ 1074)⁻¹ := by gcongr
    _ = 2 ^ (-1074 : Int) := by
        rw [zpow_neg]
        rfl
    _ ≤ 2 ^ x.q := zpow_le_zpow_right₀ (by norm_num) hx.q_ge
    _ ≤ x.m * 2 ^ x.q := le_mul_of_one_le_left (by positivity) hone

/-- The exponent of the leading digit is the order of magnitude. -/
theorem leadingExponent_bounds (hx : x.IsDouble) (hm : x.m ≠ 0) :
    (10 : ℚ) ^ leadingExponent x ≤ x.value ∧ x.value < (10 : ℚ) ^ (leadingExponent x + 1) := by
  obtain ⟨hbelow, habove⟩ := gridFloor_bounds x (-(lift : Int))
  have hunit : (0 : ℚ) < 10 ^ (-(lift : Int)) := by positivity
  -- On the lifted grid the whole part is not zero, so its length tells the leading digit.
  have hfloor : gridFloor x (-(lift : Int)) ≠ 0 := by
    intro hzero
    rw [hzero, Nat.cast_zero, zero_add, one_mul] at habove
    exact absurd (lift_lt_value hx hm) habove.not_ge
  rw [leadingExponent]
  generalize gridFloor x (-(lift : Int)) = n at hbelow habove hfloor ⊢
  have hlow := pow_le_of_digitCount hfloor
  have hhigh := lt_pow_digitCount n
  have hlength : 0 < digitCount n := Nat.length_toDigits_pos
  constructor
  · calc (10 : ℚ) ^ ((digitCount n : Int) - 1 - lift)
        = ((10 ^ (digitCount n - 1) : Nat) : ℚ) * 10 ^ (-(lift : Int)) := by
          push_cast
          rw [← zpow_natCast, ← zpow_add₀ (by norm_num)]
          congr 1
          omega
      _ ≤ n * 10 ^ (-(lift : Int)) := by gcongr
      _ ≤ x.value := hbelow
  · calc x.value < (n + 1) * 10 ^ (-(lift : Int)) := habove
      _ ≤ ((10 ^ digitCount n : Nat) : ℚ) * 10 ^ (-(lift : Int)) := by
          gcongr
          exact_mod_cast hhigh
      _ = (10 : ℚ) ^ ((digitCount n : Int) - 1 - lift + 1) := by
          push_cast
          rw [← zpow_natCast, ← zpow_add₀ (by norm_num)]
          congr 1
          omega

/-- The neighbours on the grid of a later digit have no more digits than there are grids so far, but
for a power of ten. -/
theorem gridFloor_lt (hx : x.IsDouble) (hm : x.m ≠ 0) (n : Nat) :
    gridFloor x (leadingExponent x - n) < 10 ^ (n + 1) := by
  obtain ⟨hbelow, -⟩ := gridFloor_bounds x (leadingExponent x - n)
  obtain ⟨-, habove⟩ := leadingExponent_bounds hx hm
  have hunit : (0 : ℚ) < 10 ^ (leadingExponent x - n) := by positivity
  have hsplit : (10 : ℚ) ^ (leadingExponent x + 1) =
      10 ^ (n + 1) * 10 ^ (leadingExponent x - n) := by
    rw [← zpow_natCast, ← zpow_add₀ (by norm_num)]
    congr 1
    omega
  have hlt := hbelow.trans_lt habove
  rw [hsplit] at hlt
  exact_mod_cast lt_of_mul_lt_mul_right hlt hunit.le

/-! ### Seventeen digits -/

/-- The unit of the seventeenth grid is less than the distance of two doubles, even below a power of
two, where they are closer. -/
theorem unit_lt (hx : x.IsDouble) (hm : x.m ≠ 0) :
    let unit := (10 : ℚ) ^ (leadingExponent x - (16 : Nat))
    x.lower < x.value - unit / 2 ∧ x.value + unit / 2 < x.upper := by
  intro unit
  have hspace : (0 : ℚ) < 2 ^ x.q := by positivity
  have hunit : unit * 10 ^ 16 ≤ x.m * 2 ^ x.q := by
    refine le_of_eq_of_le ?_ (leadingExponent_bounds hx hm).1
    rw [← zpow_natCast, ← zpow_add₀ (by norm_num)]
    congr 1
    omega
  have hsignificand : (x.m : ℚ) * 2 ^ x.q ≤ 2 ^ 53 * 2 ^ x.q := by
    gcongr
    exact_mod_cast hx.m_lt.le
  rw [Binary64.Magnitude.lower, Binary64.Magnitude.upper, Binary64.Magnitude.value]
  constructor
  · split
    next hnarrow =>
      rw [hx.m_eq hnarrow] at hunit ⊢
      push_cast at hunit ⊢
      linarith
    next => linarith
  · linarith

/-- On the seventeenth grid a neighbour always rounds to the double. -/
theorem onGrid_seventeenth (tie : Tie) (hx : x.IsDouble) (hm : x.m ≠ 0) :
    ∃ d, onGrid tie x (leadingExponent x - (16 : Nat)) = some d := by
  obtain ⟨hlower, hupper⟩ := unit_lt hx hm
  obtain ⟨hbelow, habove⟩ := gridFloor_bounds x (leadingExponent x - (16 : Nat))
  generalize leadingExponent x - (16 : Nat) = k at hlower hupper hbelow habove ⊢
  have hunit : (0 : ℚ) < 10 ^ k := by positivity
  by_cases hnear : x.value - 10 ^ k / 2 ≤ gridFloor x k * 10 ^ k
  · exact onGrid_of_rounds tie hm ⟨.inl (by linarith), .inl (by linarith)⟩
  · apply onGrid_of_rounds tie hm (n := gridFloor x k + 1)
    push_cast
    exact ⟨.inl (by linarith), .inl (by linarith)⟩

/-! ### Shorter decimals -/

/-- If a decimal of a length rounds to a double, then something is found on the grid of that many
digits. The decimal is on the grid, unless it is too small for the leading digit of the double; then
the power of ten with that digit rounds to the double too. -/
theorem onGrid_of_lt_pow (tie : Tie) (hx : x.IsDouble) (hm : x.m ≠ 0) {digits n : Nat}
    {exponent : Int} (hlength : digits < 10 ^ (n + 1))
    (h : x.Rounds (digits * (10 : ℚ) ^ exponent)) :
    ∃ d, onGrid tie x (leadingExponent x - n) = some d := by
  by_cases hexponent : leadingExponent x - n ≤ exponent
  · apply onGrid_of_rounds tie hm
      (n := digits * 10 ^ (exponent - (leadingExponent x - n)).toNat)
    have hsame : (10 : ℚ) ^ (exponent - (leadingExponent x - n)).toNat *
        10 ^ (leadingExponent x - n) = 10 ^ exponent := by
      rw [← zpow_natCast, ← zpow_add₀ (by norm_num)]
      congr 1
      omega
    push_cast
    rw [mul_assoc, hsame]
    exact h
  -- The decimal is finer than the grid, hence below the power of ten that leads the double.
  · apply onGrid_of_rounds tie hm (n := 10 ^ n)
    have hleading : ((10 ^ n : Nat) : ℚ) * 10 ^ (leadingExponent x - n) =
        10 ^ leadingExponent x := by
      push_cast
      rw [← zpow_natCast, ← zpow_add₀ (by norm_num)]
      congr 1
      omega
    have hsmall : (digits : ℚ) * 10 ^ exponent ≤ 10 ^ leadingExponent x :=
      calc (digits : ℚ) * 10 ^ exponent ≤ ((10 ^ (n + 1) : Nat) : ℚ) * 10 ^ exponent := by
            gcongr
        _ = 10 ^ (((n + 1 : Nat) : Int) + exponent) := by
            push_cast
            rw [← zpow_natCast, ← zpow_add₀ (by norm_num)]
            push_cast
            rfl
        _ ≤ 10 ^ leadingExponent x := zpow_le_zpow_right₀ (by norm_num) (by omega)
    rw [hleading]
    exact h.between x.rounds_value hsmall (leadingExponent_bounds hx hm).1

/-! ### Zeros at the end -/

theorem digits_stripZeros_le (d : Decimal) : d.stripZeros.digits ≤ d.digits := by
  induction hn : d.digits using Nat.strongRecOn generalizing d with
  | ind n ih =>
      rw [stripZeros]
      split
      next hzeros =>
        have hle := ih (d.digits / 10) (by omega) ⟨d.digits / 10, d.exponent + 1⟩ rfl
        omega
      · omega

/-- Without zeros at the end, a power of ten has one digit. -/
theorem digits_stripZeros_lt {d : Decimal} {length : Nat} (hlength : length ≠ 0)
    (h : d.digits ≤ 10 ^ length) : d.stripZeros.digits < 10 ^ length := by
  obtain ⟨length, rfl⟩ := Nat.exists_eq_add_one_of_ne_zero hlength
  have hpos : 0 < 10 ^ length := by positivity
  rw [pow_succ] at h ⊢
  rw [stripZeros]
  split
  next hzeros =>
    have hle := digits_stripZeros_le ⟨d.digits / 10, d.exponent + 1⟩
    dsimp only at hle
    omega
  next hkept => omega

/-! ### The search -/

/-- The search stops at the first grid on which something is found. -/
theorem findSome?_range {α : Type} {f : Nat → Option α} {n i : Nat} (hi : i < n)
    (h : ∃ a, f i = some a) :
    ∃ j ≤ i, ∃ a, (List.range n).findSome? f = some a ∧ f j = some a := by
  obtain ⟨b, hb⟩ := h
  have hsome : ((List.range n).findSome? f).isSome = true :=
    List.findSome?_isSome_iff.mpr ⟨i, List.mem_range.mpr hi, by rw [hb]; rfl⟩
  obtain ⟨a, ha⟩ := Option.isSome_iff_exists.mp hsome
  obtain ⟨before, j, behind, hlist, hj, hnone⟩ := List.findSome?_eq_some_iff.mp ha
  refine ⟨j, ?_, a, ha, hj⟩
  have hmem : i ∈ before ++ j :: behind := hlist ▸ List.mem_range.mpr hi
  have hsorted : (before ++ j :: behind).Pairwise (· < ·) := hlist ▸ List.pairwise_lt_range
  rcases List.mem_append.mp hmem with hbefore | hrest
  · rw [hnone i hbefore] at hb
    cases hb
  · rcases List.mem_cons.mp hrest with rfl | hbehind
    · exact le_rfl
    · exact (List.rel_of_pairwise_cons (List.pairwise_append.mp hsorted).2.1 hbehind).le

/-- The shortest decimal is not longer than any decimal that rounds to the double. -/
theorem digits_shortest_lt (tie : Tie) (hx : x.IsDouble) {digits length : Nat} {exponent : Int}
    (hlength : digits < 10 ^ length) (h : x.Rounds (digits * (10 : ℚ) ^ exponent)) :
    (shortest tie x).digits < 10 ^ length := by
  by_cases hm : x.m = 0
  · rw [shortest, if_pos hm]
    positivity
  have hdigits : digits ≠ 0 :=
    digits_ne_zero_of_readsBack hm ((readsBack_iff hm ⟨digits, exponent⟩).mpr h)
  have hpositive : length ≠ 0 := by
    rintro rfl
    rw [pow_zero] at hlength
    omega
  -- Something is found on the grid of the decimal's last digit, and on the seventeenth.
  have hgrid : ∃ d, onGrid tie x (leadingExponent x - (min (length - 1) 16 : Nat)) = some d := by
    by_cases hlong : 17 ≤ length
    · rw [Nat.min_eq_right (by omega)]
      exact onGrid_seventeenth tie hx hm
    · rw [Nat.min_eq_left (by omega)]
      refine onGrid_of_lt_pow tie hx hm (hlength.trans_le ?_) h
      exact Nat.pow_le_pow_right (by norm_num) (by omega)
  obtain ⟨n, hn, d, hfound, hd⟩ := findSome?_range (n := 17)
    (f := fun n : Nat => onGrid tie x (leadingExponent x - (n : Int))) (by omega) hgrid
  have hshortest : shortest tie x = d.stripZeros := by
    rw [shortest, if_neg hm]
    dsimp only
    rw [hfound, Option.getD_some]
  have hfloor := gridFloor_lt hx hm n
  have hle := digits_onGrid_le hd
  rw [hshortest]
  calc d.stripZeros.digits < 10 ^ (n + 1) := digits_stripZeros_lt (by omega) (by omega)
    _ ≤ 10 ^ length := Nat.pow_le_pow_right (by norm_num) (by omega)

theorem hasFewest_shortest (tie : Tie) (hx : x.IsDouble) : HasFewest x (shortest tie x).digits :=
  fun _ _ _ hlength h => digits_shortest_lt tie hx hlength h

end Decimal
end PlantStore
