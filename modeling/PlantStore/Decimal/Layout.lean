import PlantStore.Decimal.Shortest
import PlantStore.Text.Digits

/-! # Laying out a number

The digits of a number are fixed by `Decimal.shortest`; a `Decimal.Layout` says how they are
set: where the positional form ends, whether a whole number shows a fraction digit, whether
a positive exponent carries a sign. Every text that the store writes has one layout value of
its own, defined beside its writer. -/

namespace PlantStore

namespace Decimal

/-- The decisions that turn a decimal into text. -/
structure Layout where
  /-- The exponents of the leading digit, from the first to below the second, that are
  written positionally. Without bounds all of them are. -/
  positional : Option (Int × Int)
  /-- A whole number in positional form ends in `.0`. -/
  showsFraction : Bool
  signsExponent : Bool
  tie : Tie
  deriving Repr

namespace Layout

def isPositional (l : Layout) (e : Int) : Bool :=
  match l.positional with
  | none => true
  | some (first, last) => first ≤ e && e < last

/-- The positional form of digits of which the last has a given exponent: zeros are put
behind the digits, or a point between them, or zeros and a point before them. -/
def positionalForm (l : Layout) (digits : List Char) (exponent : Int) : List Char :=
  if 0 ≤ exponent then
    digits ++ List.replicate exponent.toNat '0' ++ (if l.showsFraction then ['.', '0'] else [])
  else
    let places := (-exponent).toNat
    if places < digits.length then
      digits.take (digits.length - places) ++ '.' :: digits.drop (digits.length - places)
    else
      '0' :: '.' :: (List.replicate (places - digits.length) '0' ++ digits)

/-- The form with an exponent: one digit before the point, no point if it is the only one. -/
def exponentForm (l : Layout) (digits : List Char) (e : Int) : List Char :=
  let rest := digits.drop 1
  digits.take 1 ++ (if rest.isEmpty then [] else '.' :: rest) ++ 'e' ::
    ((if l.signsExponent && 0 < e then ['+'] else []) ++ Text.signedDecimal e)

def write (l : Layout) (d : Decimal) : List Char :=
  let digits := Text.decimal d.digits
  let e := d.exponent + digits.length - 1
  if l.isPositional e then l.positionalForm digits d.exponent else l.exponentForm digits e

end Layout

end Decimal

/-- The text of a finite double in a given layout; a negative zero keeps its sign. -/
def Binary64.write (l : Decimal.Layout) (d : Binary64) : List Char :=
  (if d.isNegative then ['-'] else []) ++ l.write (Decimal.shortest l.tie d.magnitude)

end PlantStore
