import PlantStore.Plant.Read

/-! # Writing to a plant

`set` replaces the elements of a leaf, or makes the leaf if its key has none. A leaf keeps
its seed, an immutable leaf its elements, and the root always has exactly one element. The
new elements are built before anything changes, so a refused `set` leaves the plant as it
was. -/

namespace PlantStore

namespace Plant

/-! ### Elements -/

/-- The elements that a leaf would get by a write, or the first rule that forbids it. -/
def renewal (atRoot : Bool) (leaf : Leaf) (seed : Seed) (values : List Value) :
    Result (List Element) :=
  if leaf.seed ≠ seed then .error .wrongSeedType
  else if leaf.isImmutable then .error .immutable
  else if atRoot && values.length != 1 then .error .noSuchElement
  else Element.encodeAll seed values

/-- Puts a leaf directly behind the root. -/
def link (p : Plant) (leaf : Leaf) : Plant := { p with chain := leaf :: p.chain }

variable [KeyHash]

def publish (p : Plant) (key : String) (elements : List Element) : Plant :=
  p.modify key fun leaf => { leaf with elements := elements }

/-- Writes to the leaf of a key, which has to exist. -/
def update (p : Plant) (key : String) (seed : Seed) (values : List Value) : Result Plant :=
  match p.find? key with
  | none => .error .noSuchLeaf
  | some leaf =>
    match renewal (p.place? key == some .root) leaf seed values with
    | .ok elements => .ok (p.publish key elements)
    | .error e => .error e

/-- A write to the leaf of a key, which has to exist, as a call of its own. -/
def updateNow (p : Plant) (key : String) (seed : Seed) (values : List Value) :
    Outcome (Result Unit) :=
  match p.update key seed values with
  | .ok after => ⟨.ok (), after, []⟩
  | .error e => ⟨.error e, p, []⟩

/-- Makes a leaf for a key that has none. -/
def insert (p : Plant) (key : String) (seed : Seed) (values : List Value) : Result Plant :=
  match Element.encodeAll seed values with
  | .ok elements => .ok (p.link (.create key seed elements))
  | .error e => .error e

def store (p : Plant) (key : String) (seed : Seed) (values : List Value) :
    Result (Plant × List Event) :=
  if p.isDefunct then .error .noSuchLeaf
  else if p.has key then (p.update key seed values).map (·, [])
  else (p.insert key seed values).map (·, [.linked key (StoredKey.ofString key).isInline])

/-- Replaces the elements of a leaf, making the leaf if it does not exist. -/
def set (p : Plant) (key : String) (seed : Seed) (values : List Value) :
    Outcome (Result Unit) :=
  match p.store key seed values with
  | .ok (after, events) => ⟨.ok (), after,
      events ++ p.report (.wrote key seed values.length (.ok ()))⟩
  | .error e => ⟨.error e, p, p.report (.wrote key seed values.length (.error e))⟩

/-! ### Flags and the host's word -/

/-- Changes the leaf of a key; without one the change is refused. -/
def change (p : Plant) (key : String) (f : Leaf → Leaf) : Outcome (Result Unit) :=
  if p.has key then ⟨.ok (), p.modify key f, []⟩ else ⟨.error .noSuchLeaf, p, []⟩

def setFlags (p : Plant) (key : String) (flags : LeafFlags) : Outcome (Result Unit) :=
  p.change key fun leaf => { leaf with flags := leaf.flags.replaceVisible flags }

def setHostWord (p : Plant) (key : String) (word : UInt64) : Outcome (Result Unit) :=
  p.change key fun leaf => { leaf with hostWord := word }

end Plant

end PlantStore
