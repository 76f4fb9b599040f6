import PlantStore.Call

/-! # Stopped calls

Several threads may call one plant at a time. What they can do to each other is decided by
five things that a call may hold.

* *A reader's registration*. No leaf is taken out of the chain before all readers have left.
  Reads, listings and updates of a leaf are readers.
* *The link lock* of a leaf. While a removal is under way, which is told by the mark of the
  root, nobody registers. Who comes then holds the link lock of the leaf it stands on, and
  goes along the chain hand over hand. A removal takes the link locks of its leaf and of the
  one before, so it waits for these readers too.
* *The rights* to change the chain. An insertion, a removal or a `free` takes them, one at a
  time, and keeps them while it waits for the readers.
* *The writer mutex* of a leaf, which serialises updates and flag changes of that leaf.
* *The value lock* of a leaf. Readers share it; an update takes it alone to put its new
  elements in place. The host's word is read and written only if the lock is free at once.

A stopped call is one that has been interrupted between its checks and its effect, where it
takes memory for the first time. It is told by what it holds and by what it still has to
do. -/

namespace PlantStore

inductive Stopped
  /-- A read: a reader with the value lock of a leaf, so that its answer is determined. -/
  | reading (name : String) (answer : Answer)
  /-- A listing: a reader that stands on the root and goes along the chain later. -/
  | listing
  /-- An update: a reader with the writer mutex of a leaf that has passed all checks but those
  of the values. -/
  | updating (name : String) (seed : Seed) (values : List Value)
  /-- A write of an absent key: it has the rights, and has linked nothing yet. -/
  | inserting (key : String) (seed : Seed) (values : List Value)
  /-- A call that has run through without being stopped. It holds nothing. -/
  | ended (answer : Answer)

namespace Stopped

/-! ### What it holds -/

/-- Whether removals have to wait for the call. -/
def isReader : Stopped → Bool
  | reading .. | listing | updating .. => true
  | inserting .. | ended _ => false

def hasRights : Stopped → Bool
  | inserting .. => true
  | reading .. | listing | updating .. | ended _ => false

def hasWriter (name : String) : Stopped → Bool
  | updating held _ _ => held == name
  | reading .. | listing | inserting .. | ended _ => false

def readsValue (name : String) : Stopped → Bool
  | reading held _ => held == name
  | listing | updating .. | inserting .. | ended _ => false

variable [KeyHash]

/-! ### Stopping and going on -/

/-- Where a write is stopped: as it makes the new elements, or a new leaf. A write that is
refused before, or that has no elements to make for a leaf that is there, runs through. -/
def ofSet? (p : Plant) (key : String) (seed : Seed) (values : List Value) : Option Stopped :=
  match p.find? key with
  | some leaf =>
    if leaf.seed ≠ seed || leaf.isImmutable then none
    else if p.place? key == some .root && values.length != 1 then none
    else if values.isEmpty then none
    else some (updating leaf.name seed values)
  | none => if p.isDefunct || !seed.isValid then none else some (inserting key seed values)

/-- Where a read is stopped: as it makes room for what it copies. -/
def ofRead? (p : Plant) (key : String) (copies : Leaf → Bool) (answer : Answer) :
    Option Stopped :=
  match p.find? key with
  | some leaf => if copies leaf then some (reading leaf.name answer) else none
  | none => none

/-- Where a call is stopped; `none` if it runs through. One element is copied without taking
memory unless it is a text, and an empty one takes none either. -/
def of? (p : Plant) : Call → Option Stopped
  | .set key seed values => ofSet? p key seed values
  | .get key index =>
    ofRead? p key (fun leaf => leaf.seed == .string && leaf.sizeAt index != 0)
      (.value (p.get key index))
  | .getAll key => ofRead? p key (fun leaf => !leaf.elements.isEmpty) (.values (p.getAll key))
  | .keys => if p.isDefunct then none else some listing
  | _ => none

/-- Begins a call that is to be stopped. -/
def begin (p : Plant) (call : Call) : Stopped × Plant :=
  match of? p call with
  | some s => (s, p)
  | none =>
    let outcome := p.perform call
    (ended outcome.answer, outcome.plant)

def finish (p : Plant) : Stopped → Answer × Plant
  | reading _ answer | ended answer => (answer, p)
  | listing => (.keys p.keys, p)
  | updating name seed values =>
    let outcome := p.updateNow name seed values
    (.unit outcome.answer, outcome.plant)
  | inserting key seed values =>
    let outcome := p.set key seed values
    (.unit outcome.answer, outcome.plant)

end Stopped

end PlantStore
