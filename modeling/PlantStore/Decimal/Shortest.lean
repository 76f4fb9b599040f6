import PlantStore.Binary64

/-! # The fewest digits that read back

A finite double is written with the least number of decimal digits that still rounds to it,
and among the decimals of that length with the nearest. The search looks at one decimal grid
after the other, from one digit on. If any point of a grid lies in the interval of reals
that round to the double, then one of the double's two neighbours on the grid does, so two
tests settle a grid. All arithmetic is exact. -/

namespace PlantStore

/-- The number `digits * 10 ^ exponent`. -/
structure Decimal where
  digits : Nat
  exponent : Int
  deriving DecidableEq, Repr

namespace Decimal

/-- What becomes of a value that lies half-way between two decimals of the least length. -/
inductive Tie
  | up
  /-- The decimal with an even last digit is taken. -/
  | toEven
  deriving DecidableEq, Repr

/-- Compares `a * 10 ^ i` with `n * 2 ^ j`. -/
def compareScaled (a : Nat) (i : Int) (n : Nat) (j : Int) : Ordering :=
  compare (a * Nat.pow 10 i.toNat * Nat.pow 2 (-j).toNat)
    (n * Nat.pow 2 j.toNat * Nat.pow 10 (-i).toNat)

/-- Whether a decimal rounds to a magnitude: it lies between the midpoints to the two
neighbours, or on one of them if `m` is even. -/
def readsBack (x : Binary64.Magnitude) (d : Decimal) : Bool :=
  let low := compareScaled d.digits d.exponent
    (4 * x.m - if x.narrowBelow then 1 else 2) (x.q - 2)
  let high := compareScaled d.digits d.exponent (4 * x.m + 2) (x.q - 2)
  let even := x.m % 2 == 0
  (low == .gt || (even && low == .eq)) && (high == .lt || (even && high == .eq))

/-- The whole part of `x / 10 ^ k`. -/
def gridFloor (x : Binary64.Magnitude) (k : Int) : Nat :=
  (x.m * Nat.pow 2 x.q.toNat * Nat.pow 10 (-k).toNat) /
    (Nat.pow 2 (-x.q).toNat * Nat.pow 10 k.toNat)

def digitCount (n : Nat) : Nat := (Nat.toDigits 10 n).length

/-- A power of ten that lifts every magnitude other than zero above 1. -/
def lift : Nat := 324

/-- The exponent of the leading decimal digit of a magnitude other than zero. -/
def leadingExponent (x : Binary64.Magnitude) : Int :=
  (digitCount (gridFloor x (-(lift : Int))) : Int) - 1 - lift

/-- The choice between two neighbours on a grid that both read back: the nearer one, or the
one that the tie rule names. -/
def nearer (tie : Tie) (x : Binary64.Magnitude) (below : Nat) (k : Int) : Nat :=
  match compareScaled (2 * below + 1) k (2 * x.m) x.q, tie with
  | .gt, _ => below
  | .lt, _ => below + 1
  | .eq, .up => below + 1
  | .eq, .toEven => if below % 2 = 0 then below else below + 1

/-- The decimal chosen on the grid of multiples of `10 ^ k`, if one of the two neighbours
reads back. -/
def onGrid (tie : Tie) (x : Binary64.Magnitude) (k : Int) : Option Decimal :=
  let below := gridFloor x k
  match readsBack x ⟨below, k⟩, readsBack x ⟨below + 1, k⟩ with
  | true, true => some ⟨nearer tie x below k, k⟩
  | true, false => some ⟨below, k⟩
  | false, true => some ⟨below + 1, k⟩
  | false, false => none

/-- Moves zeros at the end of the digits into the exponent. -/
def stripZeros (d : Decimal) : Decimal :=
  if d.digits ≠ 0 ∧ d.digits % 10 = 0 then
    stripZeros ⟨d.digits / 10, d.exponent + 1⟩
  else
    d
termination_by d.digits
decreasing_by omega

/-- The exact value of a magnitude, as a decimal. -/
def exact (x : Binary64.Magnitude) : Decimal :=
  ⟨x.m * Nat.pow 2 x.q.toNat * Nat.pow 5 (-x.q).toNat, if x.q < 0 then x.q else 0⟩

/-- The shortest decimal that reads back. Seventeen digits always suffice; should they not,
the exact value is written. -/
def shortest (tie : Tie) (x : Binary64.Magnitude) : Decimal :=
  if x.m = 0 then
    ⟨0, 0⟩
  else
    let top := leadingExponent x
    stripZeros (((List.range 17).findSome? fun n : Nat =>
      onGrid tie x (top - (n : Int))).getD (exact x))

end Decimal

end PlantStore
