import PlantStore.Element
import PlantStore.Flags
import PlantStore.Key.Stored

/-! # Leaves

A leaf is a named array of elements of one seed, with flags and one opaque word of the
host's. Its key and seed are fixed when it is made. -/

namespace PlantStore

structure Leaf where
  key : StoredKey
  hash : UInt32
  seed : Seed
  flags : LeafFlags
  elements : List Element
  /-- The host's word. It is no part of the value of the leaf. -/
  hostWord : UInt64
  deriving DecidableEq

namespace Leaf

/-- A new leaf, without flags and without a host's word. -/
def create [KeyHash] (key : String) (seed : Seed) (elements : List Element) : Leaf where
  key := .ofString key
  hash := KeyHash.hash key
  seed := seed
  flags := .empty
  elements := elements
  hostWord := 0

def name (leaf : Leaf) : String := leaf.key.toString

/-- Whether a leaf is the one that a key with this hash names. The hash alone decides
nothing: it only spares the comparison of keys whose hashes differ. -/
def answersTo (leaf : Leaf) (key : String) (hash : UInt32) : Bool :=
  leaf.hash == hash && leaf.name == key

def isUndeletable (leaf : Leaf) : Bool := leaf.flags.contains .undeletable

def isImmutable (leaf : Leaf) : Bool := leaf.flags.contains .immutable

/-- The value at an index, or the refusal that names it missing. -/
def valueAt (leaf : Leaf) (index : Nat) : Result Value :=
  match leaf.elements[index]? with
  | some element => element.decode leaf.seed
  | none => .error .noSuchElement

def values (leaf : Leaf) : Result (List Value) :=
  Element.decodeAll leaf.seed leaf.elements

/-- The reported size of the element at an index, 0 if there is none. -/
def sizeAt (leaf : Leaf) (index : Nat) : Nat :=
  match leaf.elements[index]? with
  | some element => element.size leaf.seed
  | none => 0

end Leaf

end PlantStore
