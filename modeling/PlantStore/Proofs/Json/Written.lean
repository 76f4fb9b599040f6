import Mathlib.Algebra.Order.Field.Basic
import Mathlib.Tactic.FieldSimp
import PlantStore.Proofs.Json.Numeral

/-! # The numerals that are written

Every whole number and every finite double is written as a numeral, in each layout, and the
numeral stands for the number: an integer for itself, a double for its shortest decimal with its
sign. -/

namespace PlantStore

/-! ### Digits -/

namespace Text

theorem isDigits_decimal (n : Nat) : Numeral.IsDigits (decimal n) :=
  ⟨Nat.toDigits_ne_nil, fun _ hc => Nat.isDigit_of_mem_toDigits (by decide) (by decide) hc⟩

/-- A numeral of a positive number has no leading zero. -/
theorem head?_decimal_ne {n : Nat} (h : n ≠ 0) : (decimal n).head? ≠ some '0' := by
  induction n using Nat.strongRecOn with
  | ind n ih =>
      rw [decimal]
      by_cases hlt : n < 10
      · rw [Nat.toDigits_of_lt_base hlt]
        simpa using h
      · rw [Nat.toDigits_of_base_le (by decide) (by omega)]
        have hpos : n / 10 ≠ 0 := by omega
        have hhead := ih (n / 10) (by omega) hpos
        rw [decimal] at hhead
        rw [List.head?_append_of_ne_nil _ Nat.toDigits_ne_nil]
        exact hhead

theorem decimal_zero : decimal 0 = ['0'] := Nat.toDigits_zero 10

theorem isWhole_decimal (n : Nat) : Numeral.IsWhole (decimal n) := by
  by_cases h : n = 0
  · left
    rw [h, decimal_zero]
  · exact .inr ⟨isDigits_decimal n, head?_decimal_ne h⟩

theorem ofDigitChars_decimal (n : Nat) : Nat.ofDigitChars 10 (decimal n) 0 = n :=
  Nat.ofDigitChars_ten_toDigits

end Text

/-! ### Whole numbers -/

namespace Numeral

/-- The numeral of an integer. -/
def ofInt (n : Int) : Numeral := ⟨n < 0, Text.decimal n.natAbs, [], none⟩

theorem wellFormed_ofInt (n : Int) : (ofInt n).WellFormed where
  whole := Text.isWhole_decimal _
  fraction := by simp [ofInt]
  exponent := by simp [ofInt]

theorem text_ofInt (n : Int) : (ofInt n).text = Text.signedDecimal n := by
  cases n with
  | ofNat n => simp [ofInt, text, fractionText, exponentText, Text.signedDecimal]
  | negSucc n => simp [ofInt, text, fractionText, exponentText, Text.signedDecimal]

theorem value_ofInt (n : Int) : (ofInt n).value = n := by
  have hpower : (10 : ℚ) ^ ((0 : Int) - ([] : List Char).length) = 1 := by simp
  rw [value, ofInt, List.append_nil, Text.ofDigitChars_decimal]
  show _ * _ * (10 : ℚ) ^ ((0 : Int) - ([] : List Char).length) = _
  rw [hpower, mul_one]
  by_cases h : n < 0
  · have habs : (n.natAbs : Int) = -n := by omega
    rw [if_pos (decide_eq_true h), ← Int.cast_natCast, habs]
    simp
  · have habs : (n.natAbs : Int) = n := by omega
    rw [if_neg (by simpa using h), ← Int.cast_natCast, habs, one_mul]

/-- An integer is written as a numeral that stands for it. -/
theorem valueOf?_signedDecimal (n : Int) : valueOf? (Text.signedDecimal n) = some (n : ℚ) := by
  rw [← text_ofInt, (wellFormed_ofInt n).valueOf?_text, value_ofInt]

end Numeral

/-! ### Decimals -/

namespace Decimal

/-- The number that a decimal stands for. -/
def value (d : Decimal) : ℚ := d.digits * (10 : ℚ) ^ d.exponent

/-- A decimal of which only zero has zeros in front of the point. -/
def IsPlain (d : Decimal) : Prop := d.digits = 0 → d.exponent = 0

namespace Layout

/-- The exponent as the layout writes it. -/
def exponentOf (l : Layout) (e : Int) : Numeral.Exponent :=
  ⟨'e', if e < 0 then ['-'] else if l.signsExponent && 0 < e then ['+'] else [],
    Text.decimal e.natAbs⟩

/-- The numeral of digits in positional form. -/
def positionalNumeral (l : Layout) (negative : Bool) (digits : List Char) (exponent : Int) :
    Numeral :=
  if 0 ≤ exponent then
    ⟨negative, digits ++ List.replicate exponent.toNat '0',
      if l.showsFraction then ['0'] else [], none⟩
  else
    let places := (-exponent).toNat
    if places < digits.length then
      ⟨negative, digits.take (digits.length - places), digits.drop (digits.length - places), none⟩
    else
      ⟨negative, ['0'], List.replicate (places - digits.length) '0' ++ digits, none⟩

/-- The numeral of digits with an exponent. -/
def exponentNumeral (l : Layout) (negative : Bool) (digits : List Char) (e : Int) : Numeral :=
  ⟨negative, digits.take 1, digits.drop 1, some (l.exponentOf e)⟩

/-- The numeral of a decimal in a layout. -/
def numeral (l : Layout) (negative : Bool) (d : Decimal) : Numeral :=
  let digits := Text.decimal d.digits
  let e := d.exponent + digits.length - 1
  if l.isPositional e then l.positionalNumeral negative digits d.exponent
  else l.exponentNumeral negative digits e

/-! ### The text of the numeral -/

theorem text_exponentOf (l : Layout) (e : Int) :
    (l.exponentOf e).text =
      'e' :: ((if l.signsExponent && 0 < e then ['+'] else []) ++ Text.signedDecimal e) := by
  rw [Numeral.Exponent.text, exponentOf]
  cases e with
  | ofNat n => simp [Text.signedDecimal]
  | negSucc n => simp [Text.signedDecimal]

theorem text_positionalNumeral (l : Layout) (negative : Bool) {digits : List Char}
    (hdigits : digits ≠ []) (exponent : Int) :
    (l.positionalNumeral negative digits exponent).text =
      (if negative then ['-'] else []) ++ l.positionalForm digits exponent := by
  rw [positionalNumeral, positionalForm]
  split
  · cases l.showsFraction <;> simp [Numeral.text, Numeral.fractionText, Numeral.exponentText]
  · dsimp only
    split
    next hplaces =>
      have hdrop : digits.drop (digits.length - (-exponent).toNat) ≠ [] := by
        rw [ne_eq, List.drop_eq_nil_iff]
        omega
      simp [Numeral.text, Numeral.fractionText, Numeral.exponentText, hdrop]
    · simp [Numeral.text, Numeral.fractionText, Numeral.exponentText, hdigits]

theorem text_exponentNumeral (l : Layout) (negative : Bool) (digits : List Char) (e : Int) :
    (l.exponentNumeral negative digits e).text =
      (if negative then ['-'] else []) ++ l.exponentForm digits e := by
  rw [exponentForm, Numeral.text]
  dsimp only [exponentNumeral, Numeral.exponentText]
  rw [text_exponentOf, Numeral.fractionText]
  simp only [List.isEmpty_iff, List.append_assoc]
  rfl

/-- The text of the numeral is what the layout writes. -/
theorem text_numeral (l : Layout) (negative : Bool) (d : Decimal) :
    (l.numeral negative d).text = (if negative then ['-'] else []) ++ l.write d := by
  rw [numeral, write]
  split
  · exact l.text_positionalNumeral negative (Text.isDigits_decimal d.digits).1 d.exponent
  · exact l.text_exponentNumeral negative _ _

/-! ### The grammar -/

theorem wellFormed_exponentOf (l : Layout) (e : Int) : (l.exponentOf e).WellFormed where
  marker := .inl rfl
  sign := by
    rw [exponentOf]
    dsimp only
    split
    · exact .inr (.inr rfl)
    · split
      · exact .inr (.inl rfl)
      · exact .inl rfl
  digits := Text.isDigits_decimal _

theorem isDigit_of_mem_zeros {n : Nat} : ∀ c ∈ List.replicate n '0', c.isDigit = true := by
  intro c hc
  rw [List.eq_of_mem_replicate hc]
  decide

/-- The beginning of a whole part is a whole part. -/
theorem isWhole_take {ds : List Char} (h : Numeral.IsWhole ds) {n : Nat} (hn : n ≠ 0) :
    Numeral.IsWhole (ds.take n) := by
  rcases h with rfl | ⟨⟨hne, hall⟩, hhead⟩
  · left
    rw [List.take_of_length_le]
    exact Nat.one_le_iff_ne_zero.mpr hn
  · right
    refine ⟨⟨?_, fun c hc => hall c (List.mem_of_mem_take hc)⟩, ?_⟩
    · simp [hn, hne]
    · rw [List.head?_take, if_neg hn]
      exact hhead

/-- Zeros behind a whole part other than zero leave it one. -/
theorem isWhole_append_zeros {ds : List Char} (h : Numeral.IsWhole ds) {n : Nat}
    (hn : ds = ['0'] → n = 0) : Numeral.IsWhole (ds ++ List.replicate n '0') := by
  rcases h with rfl | ⟨⟨hne, hall⟩, hhead⟩
  · rw [hn rfl]
    exact .inl rfl
  · refine .inr ⟨⟨?_, ?_⟩, ?_⟩
    · simp [hne]
    · intro c hc
      rcases List.mem_append.mp hc with hc | hc
      · exact hall c hc
      · exact isDigit_of_mem_zeros c hc
    · rw [List.head?_append_of_ne_nil _ hne]
      exact hhead

theorem wellFormed_positionalNumeral (l : Layout) (negative : Bool) {digits : List Char}
    (h : Numeral.IsWhole digits) {exponent : Int} (hzero : digits = ['0'] → exponent = 0) :
    (l.positionalNumeral negative digits exponent).WellFormed := by
  have hall := h.isDigits.2
  rw [positionalNumeral]
  split
  · refine ⟨isWhole_append_zeros h ?_, ?_, by simp⟩
    · intro hdigits
      rw [hzero hdigits]
      rfl
    · intro c hc
      cases hl : l.showsFraction with
      | true =>
          rw [hl] at hc
          exact @isDigit_of_mem_zeros 1 c hc
      | false =>
          rw [hl] at hc
          cases hc
  -- The point stands among the digits, or zeros are put before them.
  · dsimp only
    split
    next hplaces =>
      exact ⟨isWhole_take h (by omega), fun c hc => hall c (List.mem_of_mem_drop hc), by simp⟩
    · refine ⟨.inl rfl, ?_, by simp⟩
      intro c hc
      rcases List.mem_append.mp hc with hc | hc
      · exact isDigit_of_mem_zeros c hc
      · exact hall c hc

theorem wellFormed_exponentNumeral (l : Layout) (negative : Bool) {digits : List Char}
    (h : Numeral.IsWhole digits) (e : Int) : (l.exponentNumeral negative digits e).WellFormed := by
  refine ⟨isWhole_take h (by decide), fun c hc => h.isDigits.2 c (List.mem_of_mem_drop hc), ?_⟩
  intro exponent hexponent
  obtain rfl := Option.mem_some.mp hexponent
  exact l.wellFormed_exponentOf e

/-- The numeral of a decimal obeys the grammar. -/
theorem wellFormed_numeral (l : Layout) (negative : Bool) {d : Decimal} (hd : d.IsPlain) :
    (l.numeral negative d).WellFormed := by
  have hwhole := Text.isWhole_decimal d.digits
  rw [numeral]
  split
  · apply l.wellFormed_positionalNumeral negative hwhole
    intro hzero
    apply hd
    rw [← Text.ofDigitChars_decimal d.digits, hzero]
    rfl
  · exact l.wellFormed_exponentNumeral negative hwhole _

/-! ### The value -/

theorem value_exponentOf (l : Layout) (e : Int) : (l.exponentOf e).value = e := by
  rw [Numeral.Exponent.value, exponentOf]
  dsimp only
  rw [Text.ofDigitChars_decimal]
  by_cases h : e < 0
  · rw [if_pos h, if_pos rfl]
    omega
  · rw [if_neg h, if_neg]
    · omega
    · split <;> simp

/-- Positional form puts the point where the exponent says. -/
theorem value_positionalNumeral (l : Layout) (negative : Bool) (digits : List Char)
    (exponent : Int) :
    (l.positionalNumeral negative digits exponent).value =
      (if negative then -1 else 1) * Nat.ofDigitChars 10 digits 0 * (10 : ℚ) ^ exponent := by
  rw [positionalNumeral]
  split
  next hexponent =>
    have hpower : ((10 ^ exponent.toNat : Nat) : ℚ) = (10 : ℚ) ^ exponent := by
      rw [Nat.cast_pow, Nat.cast_ofNat, ← zpow_natCast, Int.toNat_of_nonneg hexponent]
    rw [Numeral.value, ← hpower]
    dsimp only [Option.elim_none]
    cases l.showsFraction with
    | true =>
        -- The zero behind the point counts as one more digit, which the power of ten takes back.
        rw [if_pos rfl, ← List.replicate_one, Nat.ofDigitChars_append, Nat.ofDigitChars_append,
          Nat.ofDigitChars_replicate_zero, Nat.ofDigitChars_replicate_zero, List.length_replicate,
          Nat.cast_one, zero_sub, zpow_neg_one]
        push_cast
        field_simp
    | false =>
        rw [if_neg Bool.false_ne_true, List.append_nil, Nat.ofDigitChars_append,
          Nat.ofDigitChars_replicate_zero, List.length_nil, Nat.cast_zero, sub_zero, zpow_zero]
        push_cast
        ring
  next hexponent =>
    have hplaces : (0 : Int) - (((-exponent).toNat : Nat) : Int) = exponent := by omega
    dsimp only
    split
    next hshort =>
      rw [Numeral.value]
      dsimp only [Option.elim_none]
      rw [List.take_append_drop, List.length_drop, Nat.sub_sub_self (by omega), hplaces]
    next hlong =>
      rw [Numeral.value]
      dsimp only [Option.elim_none]
      have hvalue : Nat.ofDigitChars 10 (['0'] ++
          (List.replicate ((-exponent).toNat - digits.length) '0' ++ digits)) 0 =
            Nat.ofDigitChars 10 digits 0 := by
        rw [← List.replicate_one, Nat.ofDigitChars_append, Nat.ofDigitChars_append,
          Nat.ofDigitChars_replicate_zero, Nat.ofDigitChars_replicate_zero, Nat.mul_zero]
      rw [hvalue, List.length_append, List.length_replicate, Nat.sub_add_cancel (by omega),
        hplaces]

/-- The form with an exponent has the point behind the first digit. -/
theorem value_exponentNumeral (l : Layout) (negative : Bool) (digits : List Char) (e : Int) :
    (l.exponentNumeral negative digits e).value =
      (if negative then -1 else 1) * Nat.ofDigitChars 10 digits 0 *
        (10 : ℚ) ^ (e - ((digits.length - 1 : Nat) : Int)) := by
  rw [Numeral.value]
  dsimp only [exponentNumeral, Option.elim_some]
  rw [List.take_append_drop, value_exponentOf, List.length_drop]
  rfl

/-- The numeral stands for the decimal with its sign. -/
theorem value_numeral (l : Layout) (negative : Bool) (d : Decimal) :
    (l.numeral negative d).value = (if negative then -1 else 1) * d.value := by
  rw [numeral, Decimal.value]
  split
  · rw [value_positionalNumeral, Text.ofDigitChars_decimal, mul_assoc]
  · have hlength : 0 < (Text.decimal d.digits).length := Nat.length_toDigits_pos
    have hexponent : d.exponent + ((Text.decimal d.digits).length : Int) - 1 -
        (((Text.decimal d.digits).length - 1 : Nat) : Int) = d.exponent := by omega
    rw [value_exponentNumeral, Text.ofDigitChars_decimal, hexponent, mul_assoc]

end Layout

/-! ### The shortest decimal -/

theorem digits_ne_zero_of_readsBack {x : Binary64.Magnitude} (hx : x.m ≠ 0) {d : Decimal}
    (h : readsBack x d = true) : d.digits ≠ 0 := by
  intro hzero
  have hlow : 0 < (4 * x.m - if x.narrowBelow then 1 else 2) := by split <;> omega
  -- Zero lies below the lower midpoint of every other magnitude.
  have hbelow : compareScaled d.digits d.exponent
      (4 * x.m - if x.narrowBelow then 1 else 2) (x.q - 2) = .lt := by
    rw [compareScaled, hzero, Nat.zero_mul, Nat.zero_mul, Nat.compare_eq_lt]
    exact Nat.mul_pos (Nat.mul_pos hlow (Nat.two_pow_pos _)) (Nat.pow_pos (by decide))
  rw [readsBack, hbelow] at h
  simp at h

theorem digits_ne_zero_of_onGrid {tie : Tie} {x : Binary64.Magnitude} (hx : x.m ≠ 0) {k : Int}
    {d : Decimal} (h : onGrid tie x k = some d) : d.digits ≠ 0 := by
  rw [onGrid] at h
  split at h
  next hbelow habove =>
    -- If the lower neighbour reads back it is not zero, and the upper one never is.
    have hpos : gridFloor x k ≠ 0 := digits_ne_zero_of_readsBack hx hbelow
    obtain rfl := Option.some.inj h
    show nearer tie x (gridFloor x k) k ≠ 0
    unfold nearer
    split
    · exact hpos
    · exact Nat.succ_ne_zero _
    · exact Nat.succ_ne_zero _
    · split
      · exact hpos
      · exact Nat.succ_ne_zero _
  next hbelow habove =>
    obtain rfl := Option.some.inj h
    exact digits_ne_zero_of_readsBack hx hbelow
  next hbelow habove =>
    obtain rfl := Option.some.inj h
    exact digits_ne_zero_of_readsBack hx habove
  · cases h

theorem digits_stripZeros_ne_zero {d : Decimal} (h : d.digits ≠ 0) :
    d.stripZeros.digits ≠ 0 := by
  induction hn : d.digits using Nat.strongRecOn generalizing d with
  | ind n ih =>
      rw [stripZeros]
      split
      next hzeros => exact ih (d.digits / 10) (by omega) (by dsimp only; omega) rfl
      · exact h

theorem digits_found_ne_zero (tie : Tie) {x : Binary64.Magnitude} (hx : x.m ≠ 0) (top : Int)
    (lengths : List Nat) :
    ((lengths.findSome? fun n : Nat => onGrid tie x (top - (n : Int))).getD (exact x)).digits ≠
      0 := by
  cases hfound : lengths.findSome? fun n : Nat => onGrid tie x (top - (n : Int)) with
  | none =>
      exact Nat.mul_ne_zero (Nat.mul_ne_zero hx (Nat.two_pow_pos _).ne')
        (Nat.pow_pos (by decide)).ne'
  | some d =>
      obtain ⟨n, -, hn⟩ := List.exists_of_findSome?_eq_some hfound
      exact digits_ne_zero_of_onGrid hx hn

/-- Only zero is written with the digit zero. -/
theorem digits_shortest_ne_zero (tie : Tie) {x : Binary64.Magnitude} (hx : x.m ≠ 0) :
    (shortest tie x).digits ≠ 0 := by
  have hshortest : shortest tie x = stripZeros (((List.range 17).findSome? fun n : Nat =>
      onGrid tie x (leadingExponent x - (n : Int))).getD (exact x)) := if_neg hx
  rw [hshortest]
  exact digits_stripZeros_ne_zero (digits_found_ne_zero tie hx _ _)

theorem isPlain_shortest (tie : Tie) (x : Binary64.Magnitude) : (shortest tie x).IsPlain := by
  intro hzero
  by_cases hx : x.m = 0
  · rw [shortest, if_pos hx]
  · exact absurd hzero (digits_shortest_ne_zero tie hx)

end Decimal

/-! ### Doubles -/

/-- The text of a double is a numeral that stands for its shortest decimal, with its sign. -/
theorem Binary64.valueOf?_write (l : Decimal.Layout) (d : Binary64) :
    Numeral.valueOf? (d.write l) =
      some ((if d.isNegative then -1 else 1) * (Decimal.shortest l.tie d.magnitude).value) := by
  have hplain := Decimal.isPlain_shortest l.tie d.magnitude
  rw [write, ← l.text_numeral, (l.wellFormed_numeral d.isNegative hplain).valueOf?_text,
    l.value_numeral]

end PlantStore
