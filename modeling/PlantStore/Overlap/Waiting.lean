import PlantStore.Overlap.Stopped

/-! # Waiting calls

A call that is made while another is stopped may have to wait. What it does later depends on
how far it came: some of its checks are made before it waits and are not made again, others
are made at its turn.

Some waiting calls stand on a leaf: updates, changes of flags and reads, which wait for its
writer mutex or its value lock. Each of them keeps its leaf in the chain, since it is
registered as a reader or holds the link lock of the leaf. The others want the rights and
stand nowhere. They have let go of whatever they found, and wait for the rights or, if they
have them, for the readers.

A call that stands on a leaf remembers the leaf by its name. No leaf is taken out of the chain
before it has had its turn, and a removal that waits for its own turn stays at the place where
it found its leaf. -/

namespace PlantStore

inductive Waiting
  /-- An update that has passed every check and holds the writer mutex. It waits for the
  reader of the value. -/
  | publishing (name : String) (elements : List Element)
  /-- An update that waits for the writer mutex. The leaf has the seed asked for; all else is
  checked at its turn. -/
  | updating (name : String) (seed : Seed) (values : List Value)
  | flagging (name : String) (flags : LeafFlags)
  -- A write of an absent key. It waits for the rights, and then searches again.
  | inserting (key : String) (seed : Seed) (values : List Value)
  /-- A removal that has the rights and waits for the readers. It stays at the place where it
  found the leaf. -/
  | removing (key : String) (index : Nat)
  -- A removal that waits for the rights, and then searches again.
  | deleting (key : String)
  /-- A `free` that has the rights and waits for the readers. It has gone past the leaves
  before a place of the chain, since they were undeletable. -/
  | sweeping (start : Nat)
  /-- A `free` that waits for the rights. It does not look at the root again before it begins
  to remove leaves. -/
  | freeing
  | reading (call : Call)
  /-- An export. It has listed the keys and read the values of those before the first leaf that
  is being updated. -/
  | exporting (order : ExportOrder) (done : List (String × List Value)) (left : List String)
  -- A look at all leaves, one after the other, that has come to one that is being updated.
  | viewing (length : Nat) (isDefunct : Bool) (done : List Plant.LeafView) (left : List String)

namespace Waiting

/-! ### What it holds -/

/-- Whether the call has the rights or waits for them. Otherwise it stands on a leaf. -/
def wantsRights : Waiting → Bool
  | inserting .. | removing .. | deleting _ | sweeping _ | freeing => true
  | publishing .. | updating .. | flagging .. | reading _ | exporting .. | viewing .. => false

/-- Whether the call has marked the root: it removes leaves and waits for the readers. -/
def marksRoot : Waiting → Bool
  | removing .. | sweeping _ => true
  | publishing .. | updating .. | flagging .. | inserting .. | deleting _ | freeing
  | reading _ | exporting .. | viewing .. => false

/-- Whether the call holds the writer mutex of a leaf, and waits to take its value lock. -/
def publishes (name : String) : Waiting → Bool
  | publishing held _ => held == name
  | updating .. | flagging .. | inserting .. | removing .. | deleting _ | sweeping _ | freeing
  | reading _ | exporting .. | viewing .. => false

/-- Whether the call holds something that another may need to change the chain: the place on
its leaf, be it by registration or by the link lock, or the rights. -/
def holdsUp (w other : Waiting) : Bool :=
  other.wantsRights && (!w.wantsRights || w.marksRoot)

variable [KeyHash]

/-! ### Going on -/

/-- What the call does as soon as the stopped call has left: an update that waited for the
reader only puts its elements in place. -/
def publish (p : Plant) : Waiting → Plant
  | publishing name elements => p.publish name elements
  | _ => p

/-- What the call does at its turn. A read was the first to get the value lock when the updates
had left, so it has seen the plant as it was then. -/
def finish (seen p : Plant) : Waiting → Answer × Plant
  | publishing .. => (.unit (.ok ()), p)
  | updating name seed values => done (p.updateNow name seed values)
  | flagging name flags => done (p.setFlags name flags)
  | inserting key seed values => done (p.set key seed values)
  | removing key index => done (p.reportDeleted key (p.unmark.removeAt index))
  | deleting key => done (p.deleteAfterWait key)
  | sweeping start => done (p.unmark.freeFrom start)
  | freeing => done p.freeAfterWait
  | reading call => ((seen.perform call).answer, p)
  | exporting order done left => (.text (order.text (done ++ seen.entriesOf left)), p)
  | viewing length isDefunct done left =>
    (.views length isDefunct (done ++ left.map seen.view), p)
where
  -- Nothing is logged of an overlap.
  done (outcome : Outcome (Result Unit)) : Answer × Plant :=
    (.unit outcome.answer, outcome.plant)

end Waiting

end PlantStore
