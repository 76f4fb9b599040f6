import PlantStore.Binary64
import PlantStore.Seed

/-! # Values

A value is one element of a leaf as callers see it. Each of the six kinds of value goes with
one seed, except that a pointer goes with every pointer-like one. -/

namespace PlantStore

/-- One element of a leaf. -/
inductive Value
  | int (n : Int32)
  | int64 (n : Int64)
  | double (d : Binary64)
  | boolean (b : Bool)
  | string (s : String)
  /-- A word that the store keeps but never follows. -/
  | pointer (word : UInt64)
  deriving DecidableEq

/-- The kinds of value that typed reads ask for. -/
inductive ValueKind
  | int | int64 | double | boolean | string | pointer
  deriving DecidableEq, Repr

def ValueKind.fits : ValueKind → Seed → Bool
  | int, s => s == Seed.int
  | int64, s => s == Seed.int64
  | double, s => s == Seed.double
  | boolean, s => s == Seed.boolean
  | string, s => s == Seed.string
  | pointer, s => s.isPointer

/-- The seed that a kind of value has by itself. -/
def ValueKind.naturalSeed : ValueKind → Seed
  | int => .int
  | int64 => .int64
  | double => .double
  | boolean => .boolean
  | string => .string
  | pointer => .voidPtr

namespace Value

def kind : Value → ValueKind
  | int _ => .int
  | int64 _ => .int64
  | double _ => .double
  | boolean _ => .boolean
  | string _ => .string
  | pointer _ => .pointer

def fits (v : Value) (s : Seed) : Bool := v.kind.fits s

def naturalSeed (v : Value) : Seed := v.kind.naturalSeed

/-- The value, if it is of the kind asked for. -/
def ofKind? (k : ValueKind) (v : Value) : Option Value :=
  if v.kind = k then some v else none

/-- A value only fits seeds that a leaf can have. -/
theorem isValid_of_fits {v : Value} {s : Seed} (h : v.fits s = true) : s.isValid = true := by
  cases v with
  | pointer word => simp_all [fits, kind, ValueKind.fits, Seed.isValid]
  | _ =>
    simp only [fits, kind, ValueKind.fits, beq_iff_eq] at h
    subst h
    decide

/-- Equality as callers see it: doubles are compared as numbers, and values of different
kinds are never equal. -/
def same : Value → Value → Bool
  | double a, double b => a.sameNumber b
  | a, b => a == b

end Value

end PlantStore
