/-! # Numerals

Whole numbers written with decimal or lowercase hexadecimal digits, without leading
zeros. -/

namespace PlantStore.Text

def decimal (n : Nat) : List Char := Nat.toDigits 10 n

def numeral (n : Nat) : String := String.ofList (decimal n)

def signedDecimal : Int → List Char
  | .ofNat n => decimal n
  | .negSucc n => '-' :: decimal (n + 1)

def hexadecimal (n : Nat) : List Char := Nat.toDigits 16 n

/-- A hexadecimal numeral behind the mark `0x`. -/
def markedHexadecimal (n : Nat) : List Char := '0' :: 'x' :: hexadecimal n

end PlantStore.Text
