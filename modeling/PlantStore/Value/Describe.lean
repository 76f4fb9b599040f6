import PlantStore.Decimal.Layout
import PlantStore.Error
import PlantStore.Text.Quoted
import PlantStore.Value

/-! # Describing values and outcomes

The text by which log lines show a value, and the outcome of a call. -/

namespace PlantStore

/-- Described doubles are positional from `1e-4` to below `1e16` and then show a fraction
digit; outside they have an exponent, without a plus sign. -/
def describedDouble : Decimal.Layout where
  positional := some (-4, 16)
  showsFraction := true
  signsExponent := false
  tie := .up

def Binary64.describe (d : Binary64) : String :=
  if d.isNaN then "NaN"
  else if d.isFinite then String.ofList (d.write describedDouble)
  else if d.isNegative then "-inf"
  else "inf"

def describeBool (b : Bool) : String := if b then "true" else "false"

/-- The description of a value: its kind, with the payload in parentheses. -/
def Value.describe : Value → String
  | .int n => "Int(" ++ String.ofList (Text.signedDecimal n.toInt) ++ ")"
  | .int64 n => "Int64(" ++ String.ofList (Text.signedDecimal n.toInt) ++ ")"
  | .double d => "Double(" ++ d.describe ++ ")"
  | .boolean b => "Boolean(" ++ describeBool b ++ ")"
  | .string s => "String(" ++ String.ofList (Text.quoted s) ++ ")"
  | .pointer word => "Pointer(" ++ String.ofList (Text.markedHexadecimal word.toNat) ++ ")"

/-- The description of an outcome, given that of its answer. -/
def describeResult {α : Type} (answer : α → String) : Result α → String
  | .ok a => "Ok(" ++ answer a ++ ")"
  | .error e => "Err(" ++ e.name ++ ")"

def describeUnit : Result Unit → String := describeResult fun _ => "()"

end PlantStore
