/-! # Why a call fails

A call on a plant fails for one of eight causes. Every cause has a stable number, by which
it crosses the boundary between a host and its plugins; the number 0 stands for success and
belongs to no cause. -/

namespace PlantStore

/-- The causes for which a call is refused. -/
inductive StoreError
  /-- There is no room for a value list or for a copy of a key. -/
  | memoryAllocation
  | noSuchLeaf
  /-- The index is past the last element, or the leaf may not hold that many elements. -/
  | noSuchElement
  /-- The seed is not the leaf's, or no leaf can have it, or a value does not fit it. -/
  | wrongSeedType
  | immutable
  /-- The leaf, or one of the plant's leaves, is flagged undeletable. -/
  | undeletable
  /-- Another call holds a lock of the leaf. -/
  | concurrency
  | badVersion
  deriving DecidableEq, Repr

namespace StoreError

/-- All causes, in the order of their numbers. -/
def all : List StoreError :=
  [memoryAllocation, noSuchLeaf, noSuchElement, wrongSeedType, immutable, undeletable,
    concurrency, badVersion]

def code : StoreError → Int
  | memoryAllocation => 1
  | noSuchLeaf => 2
  | noSuchElement => 3
  | wrongSeedType => 4
  | immutable => 5
  | undeletable => 6
  | concurrency => 7
  | badVersion => 8

def ofCode? (code : Int) : Option StoreError :=
  all.find? (·.code == code)

@[simp] theorem ofCode?_code (e : StoreError) : ofCode? e.code = some e := by
  cases e <;> rfl

/-- The name under which a cause appears in log lines and answers. -/
def name : StoreError → String
  | memoryAllocation => "MemoryAllocation"
  | noSuchLeaf => "NoSuchLeaf"
  | noSuchElement => "NoSuchElement"
  | wrongSeedType => "WrongSeedType"
  | immutable => "Immutable"
  | undeletable => "Undeletable"
  | concurrency => "Concurrency"
  | badVersion => "BadVersion"

def message : StoreError → String
  | memoryAllocation => "memory allocation failed"
  | noSuchLeaf => "no such leaf"
  | noSuchElement => "no such element"
  | wrongSeedType => "wrong seed type"
  | immutable => "leaf is immutable"
  | undeletable => "leaf is undeletable"
  | concurrency => "operation refused: leaf is locked"
  | badVersion => "unsupported ABI version"

end StoreError

/-- What a call that can be refused answers. -/
abbrev Result (α : Type) := Except StoreError α

/-- The number under which the outcome of a call crosses the boundary: 0 for success. -/
def Result.code {α : Type} : Result α → Int
  | .ok _ => 0
  | .error e => e.code

end PlantStore
