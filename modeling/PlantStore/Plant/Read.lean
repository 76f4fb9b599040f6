import PlantStore.Plant.Basic

/-! # Reading a plant

Questions about a plant and its leaves. None of them changes the plant. A question that can
be refused names the missing leaf or element; the others answer, for a key without a leaf, as
if it had an empty one without a type. -/

namespace PlantStore

namespace Plant

/-! ### The plant as a whole -/

/-- The names of all leaves, that of the root first. -/
def names (p : Plant) : List String :=
  if p.isDefunct then [] else p.root.name :: p.chain.map Leaf.name

def keys (p : Plant) : Result (List String) := .ok p.names

def length (p : Plant) : Nat :=
  if p.isDefunct then 0 else p.chain.length + 1

def isEmpty (p : Plant) : Bool := p.length == 0

/-! ### One leaf -/

variable [KeyHash]

def has (p : Plant) (key : String) : Bool := (p.find? key).isSome

/-- Asks the leaf of a key; without one the question is refused. -/
def ask {α : Type} (p : Plant) (key : String) (question : Leaf → Result α) : Result α :=
  match p.find? key with
  | some leaf => question leaf
  | none => .error .noSuchLeaf

/-- Asks the leaf of a key; without one the answer is `absent`. -/
def askOr {α : Type} (p : Plant) (key : String) (absent : α) (question : Leaf → α) : α :=
  match p.find? key with
  | some leaf => question leaf
  | none => absent

def get (p : Plant) (key : String) (index : Nat) : Result Value :=
  p.ask key fun leaf => leaf.valueAt index

/-- What reading the value at an index reports: nothing unless leaf and element exist. -/
def getEvents (p : Plant) (key : String) (index : Nat) : List Event :=
  match p.find? key with
  | some leaf =>
    if index < leaf.elements.length then p.report (.read key index (leaf.valueAt index)) else []
  | none => []

/-- The first value, if it is of the kind asked for. -/
def getAs (p : Plant) (kind : ValueKind) (key : String) : Result Value :=
  match p.get key 0 with
  | .ok v => if v.kind = kind then .ok v else .error .wrongSeedType
  | .error e => .error e

def getAll (p : Plant) (key : String) : Result (List Value) := p.ask key Leaf.values

/-- Whether there is a value at an index, as a refusal that names what is missing. -/
def probe (p : Plant) (key : String) (index : Nat) : Result Unit :=
  p.ask key fun leaf =>
    if index < leaf.elements.length then .ok () else .error .noSuchElement

def numElements (p : Plant) (key : String) : Nat :=
  p.askOr key 0 fun leaf => leaf.elements.length

def elementSize (p : Plant) (key : String) (index : Nat) : Nat :=
  p.askOr key 0 fun leaf => leaf.sizeAt index

def seedOf (p : Plant) (key : String) : Seed := p.askOr key .invalid Leaf.seed

/-- The flags of a leaf, as callers see them. -/
def flagsOf (p : Plant) (key : String) : LeafFlags :=
  p.askOr key .empty fun leaf => leaf.flags.visible

/-- The host's word of a leaf, 0 if none was stored. -/
def hostWordOf (p : Plant) (key : String) : Result UInt64 :=
  p.ask key fun leaf => .ok leaf.hostWord

/-- The integer that classifies the plant. -/
def type (p : Plant) : Result Int32 :=
  match p.get rootKey 0 with
  | .ok (.int n) => .ok n
  | .ok _ => .error .wrongSeedType
  | .error e => .error e

/-! ### The whole content -/

/-- What the questions about one leaf answer. -/
structure LeafView where
  key : String
  seed : Seed
  flags : LeafFlags
  length : Nat
  sizes : List Nat
  values : Result (List Value)
  hostWord : Result UInt64

def view (p : Plant) (key : String) : LeafView where
  key := key
  seed := p.seedOf key
  flags := p.flagsOf key
  length := p.numElements key
  sizes := (List.range (p.numElements key)).map (p.elementSize key)
  values := p.getAll key
  hostWord := p.hostWordOf key

def views (p : Plant) : List LeafView := p.names.map p.view

end Plant

end PlantStore
