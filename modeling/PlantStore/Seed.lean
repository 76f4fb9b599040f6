/-! # Seeds: the element type of a leaf

A leaf is created with a seed and keeps it. Five seeds name scalar types whose elements the
store owns; every code from 64 on is pointer-like, so that hosts and plugins can define
pointer types of their own, and all other codes are no types at all. -/

namespace PlantStore

/-- The tag that says which type of elements a leaf holds. Any 32-bit code can be asked for;
`Seed.isValid` tells which of them a leaf can have. -/
structure Seed where
  code : UInt32
  deriving DecidableEq, Repr

namespace Seed

/-- What a question about an absent leaf is answered with. -/
def invalid : Seed := ⟨0⟩
def int : Seed := ⟨1⟩
def double : Seed := ⟨2⟩
def boolean : Seed := ⟨3⟩
def string : Seed := ⟨4⟩
def int64 : Seed := ⟨5⟩
def funcPtr : Seed := ⟨64⟩
def voidPtr : Seed := ⟨65⟩
def plantPtr : Seed := ⟨66⟩

def firstPointer : UInt32 := 64

/-- Elements of a pointer-like seed are words that the store keeps but never follows. -/
def isPointer (s : Seed) : Bool := firstPointer ≤ s.code

/-- The seeds that a leaf can have: the five scalars and the pointer-like ones. -/
def isValid (s : Seed) : Bool :=
  (int.code ≤ s.code && s.code ≤ int64.code) || s.isPointer

/-- The size in bytes of an element. Strings differ from element to element and count 0
here, as do codes that are no type. -/
def fixedSize (s : Seed) : Nat :=
  if s = int ∨ s = boolean then 4
  else if s = int64 ∨ s = double then 8
  else if s.isPointer then 8
  else 0

/-- The name of a seed in log lines; a code without a name of its own is written as a
number. -/
def name (s : Seed) : String :=
  if s = int then "int"
  else if s = double then "double"
  else if s = boolean then "boolean"
  else if s = string then "string"
  else if s = int64 then "int64"
  else if s = funcPtr then "funcptr"
  else if s = voidPtr then "voidptr"
  else if s = plantPtr then "plantptr"
  else s!"seed({s.code.toNat})"

def describe (s : Seed) : String := s!"SeedType({s.code.toNat})"

end Seed

end PlantStore
