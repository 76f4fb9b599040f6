import PlantStore.Event
import PlantStore.Leaf

/-! # Plants

A plant is a root leaf and a chain of further leaves. The root has the key `type` and holds
one integer that classifies the plant; the leaves of the chain are made by the first write of
their key and stand newest first. A key is searched for at the root, then along the chain.
The empty key is a second name of the root and is resolved without a search.

A plant that has been freed keeps its root, marked as defunct, and answers every search as if
it had no leaf at all. -/

namespace PlantStore

/-- A typed property bag. -/
structure Plant where
  root : Leaf
  /-- The leaves behind the root, the newest first. -/
  chain : List Leaf
  isDebug : Bool
  deriving DecidableEq

def rootKey : String := "type"

inductive Place
  | root
  /-- A leaf of the chain, counted from the root on. -/
  | link (index : Nat)
  deriving DecidableEq, Repr

/-- What a call answers, the plant after it, and what it reported. -/
structure Outcome (α : Type) where
  answer : α
  plant : Plant
  events : List Event

namespace Plant

/-- A report that only a debug plant makes. -/
def report (p : Plant) (event : Event) : List Event :=
  if p.isDebug then [event] else []

def isDefunct (p : Plant) : Bool := p.root.flags.contains .defunct

/-! ### Places -/

def leafAt? (p : Plant) : Place → Option Leaf
  | .root => some p.root
  | .link index => p.chain[index]?

def modifyAt (p : Plant) (change : Leaf → Leaf) : Place → Plant
  | .root => { p with root := change p.root }
  | .link index => { p with chain := p.chain.modify index change }

/-! ### Keys -/

variable [KeyHash]

/-- Where the leaf of a key stands, if there is one. -/
def place? (p : Plant) (key : String) : Option Place :=
  if p.isDefunct then none
  else if key.isEmpty then some .root
  else
    let hash := KeyHash.hash key
    if p.root.answersTo key hash then some .root
    else (p.chain.findIdx? (·.answersTo key hash)).map .link

def find? (p : Plant) (key : String) : Option Leaf := (p.place? key).bind p.leafAt?

/-- Changes the leaf of a key. Without such a leaf nothing changes. -/
def modify (p : Plant) (key : String) (change : Leaf → Leaf) : Plant :=
  match p.place? key with
  | some place => p.modifyAt change place
  | none => p

/-! ### New plants -/

/-- A new plant: an immutable root that holds the type. -/
def make (type : Int32) (debug : Bool) : Plant where
  root := { Leaf.create rootKey .int [.ofValue (.int type)] with flags := .immutable }
  chain := []
  isDebug := debug

def new (type : Int32) (debug : Bool) : Outcome Unit :=
  let p := make type debug
  ⟨(), p, p.report (.created type)⟩

end Plant

end PlantStore
