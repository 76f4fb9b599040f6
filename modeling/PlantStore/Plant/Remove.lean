import PlantStore.Plant.Write

/-! # Removing leaves

`delete` takes one leaf out of the chain, `free` all of them and then the root. Leaves that
are flagged undeletable stay: a `delete` of one is refused, and a `free` that leaves any
behind is refused after it has removed the others. The root is never deleted, and once it has
been freed the plant has no leaves for good.

Removal works on places. A call that found its leaf and was at once granted the right to
change the chain removes the leaf at the place where it stands; one that had to wait for that
right looks its key up again. -/

namespace PlantStore

namespace Plant

/-! ### At a place of the chain -/

/-- Marks the root while a removal waits for the readers of the chain. -/
def mark (p : Plant) : Plant :=
  { p with root := { p.root with flags := p.root.flags.insert .removing } }

def unmark (p : Plant) : Plant :=
  { p with root := { p.root with flags := p.root.flags.remove .removing } }

def removeAt (p : Plant) (index : Nat) : Outcome (Result Unit) :=
  match p.chain[index]? with
  | none => ⟨.error .noSuchLeaf, p, []⟩
  | some leaf =>
    if leaf.isUndeletable then ⟨.error .undeletable, p, []⟩
    else ⟨.ok (), { p with chain := p.chain.eraseIdx index }, [.unlinked leaf.name]⟩

def reportDeleted (p : Plant) (key : String) (removal : Outcome (Result Unit)) :
    Outcome (Result Unit) :=
  match removal.answer with
  | .ok _ => { removal with events := removal.events ++ p.report (.deleted key) }
  | .error _ => removal

/-- The plant without the leaves that may be removed, from a place of the chain on. The
leaves before that place are kept whatever their flags. -/
def sweep (p : Plant) (start : Nat) : Plant :=
  { p with chain := p.chain.take start ++ (p.chain.drop start).filter Leaf.isUndeletable }

/-- What a sweep reports: every leaf that it takes out, in the order of the chain. -/
def sweepEvents (p : Plant) (start : Nat) : List Event :=
  ((p.chain.drop start).filter fun leaf => !leaf.isUndeletable).map fun leaf =>
    .unlinked leaf.name

/-- The end of a plant without a chain: its root loses what it holds and is marked. -/
def bury (p : Plant) : Plant :=
  { p with root := { p.root with
      elements := [], hostWord := 0, flags := p.root.flags.insert .defunct } }

/-! ### One leaf -/

variable [KeyHash]

/-- Removes the leaf of a key, at the place where it was found. -/
def delete (p : Plant) (key : String) : Outcome (Result Unit) :=
  match p.place? key with
  | some (.link index) => p.reportDeleted key (p.removeAt index)
  | some .root | none => ⟨.error .noSuchLeaf, p, []⟩

def chainIndex? (p : Plant) (key : String) : Option Nat :=
  p.chain.findIdx? (·.answersTo key (KeyHash.hash key))

/-- Removes the leaf that has a key at the moment of removal. -/
def deleteAfterWait (p : Plant) (key : String) : Outcome (Result Unit) :=
  match p.chainIndex? key with
  | some index => p.reportDeleted key (p.removeAt index)
  | none => ⟨.error .noSuchLeaf, p, []⟩

/-! ### All leaves -/

/-- Removes all leaves from a place of the chain on that may be removed, and then the root,
unless a leaf is left or the root is undeletable. -/
def freeFrom (p : Plant) (start : Nat) : Outcome (Result Unit) :=
  let swept := p.sweep start
  let events := p.sweepEvents start
  if !swept.chain.isEmpty then
    ⟨.error .undeletable, swept,
      events ++ swept.getEvents rootKey 0 ++ [.keptAlive swept.type.toOption]⟩
  else if swept.root.isUndeletable then
    ⟨.error .undeletable, swept, events⟩
  else
    ⟨.ok (), swept.bury, events ++ p.report .freed⟩

/-- Frees the plant once the right to change the chain has been granted. -/
def freeAfterWait (p : Plant) : Outcome (Result Unit) :=
  if p.isDefunct then ⟨.error .noSuchLeaf, p, []⟩ else p.freeFrom 0

/-- Removes every leaf, and frees the plant if none is left. An undeletable root refuses
before anything is removed. -/
def free (p : Plant) : Outcome (Result Unit) :=
  if p.root.isUndeletable then ⟨.error .undeletable, p, []⟩ else p.freeAfterWait

end Plant

end PlantStore
