/-! # Doubles

A double is kept as its 64 bits, so that storing and copying one loses nothing: neither the
sign of zero nor the payload of a value that is no number. A finite double other than zero
stands for `m * 2 ^ q`, and decimals that round to it fill the interval between the two
midpoints to its neighbours. -/

namespace PlantStore

/-- A double, as the bits of its 64-bit binary format. -/
structure Binary64 where
  bits : UInt64
  deriving DecidableEq, Repr

namespace Binary64

def isNegative (d : Binary64) : Bool := d.bits >>> 63 == 1

def exponentField (d : Binary64) : Nat := d.bits.toNat / Nat.pow 2 52 % Nat.pow 2 11

def fractionField (d : Binary64) : Nat := d.bits.toNat % Nat.pow 2 52

def isFinite (d : Binary64) : Bool := d.exponentField != 2047

def isNaN (d : Binary64) : Bool := !d.isFinite && d.fractionField != 0

def isZero (d : Binary64) : Bool := d.exponentField == 0 && d.fractionField == 0

/-- Equality of the numbers that two doubles stand for: zero has two forms, and a double
that is no number equals none, not even itself. -/
def sameNumber (a b : Binary64) : Bool :=
  !a.isNaN && !b.isNaN && (a.bits == b.bits || (a.isZero && b.isZero))

/-! ### Magnitudes -/

/-- The size of a finite double without its sign, `m * 2 ^ q`. -/
structure Magnitude where
  m : Nat
  q : Int
  /-- The neighbour below is half as far away as the neighbour above. -/
  narrowBelow : Bool
  deriving DecidableEq, Repr

def magnitude (d : Binary64) : Magnitude :=
  if d.exponentField = 0 then
    ⟨d.fractionField, -1074, false⟩
  else
    ⟨Nat.pow 2 52 + d.fractionField, (d.exponentField : Int) - 1075,
      d.fractionField == 0 && 1 < d.exponentField⟩

end Binary64

end PlantStore
