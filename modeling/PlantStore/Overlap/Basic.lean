import PlantStore.Overlap.Waiting

/-! # Overlaps

In an overlap one call is stopped inside, other calls are made, and then the stopped call
goes on. Of the other calls some are made and answered at once, as if the stopped call had
done nothing so far; the rest are started on threads of their own and wait for something that
the stopped call, or a call started earlier, holds.

These have their turns once the stopped call has left. First come the calls that stand on a
leaf, in the order of starting, and then those that want the rights, in the order of starting.
A call on a leaf waits for nothing that a call without a leaf could hold, while a removal waits
for the calls on leaves even if they were started later: for those registered as readers, and,
as it takes out its leaf, for the link lock of the leaf before, on which a reader may stand that
came when the removal was under way. If the leaves `b` and `a` stand in this order and `b` is
being written, then a change of the flags of `b` comes before a removal of `a`, and so before
all that wait behind the removal. The locks always allow this order of the turns. Where they
leave no other, the outcome is the one of this order.

`Overlap.wait?` says whether a call would have to wait, and for what, and `Overlap.run` what
all calls answer and which plant is left. -/

namespace PlantStore

/-- A call that was started on a thread of its own. It waits, or is over. -/
inductive Started
  | waiting (w : Waiting)
  | ended (answer : Answer)

/-- What is done while a call is stopped: another call is made and answered, or one is
started. -/
inductive Step
  | now (call : Call)
  | start (call : Call)

structure Overlap where
  plant : Plant
  stopped : Stopped
  -- in the order of starting
  started : List Started

namespace Overlap

/-! ### Who holds what -/

/-- The calls that wait, in the order of starting. -/
def waiting (o : Overlap) : List Waiting :=
  o.started.filterMap fun
    | .waiting w => some w
    | .ended _ => none

def rightsTaken (o : Overlap) : Bool :=
  o.stopped.hasRights || o.waiting.any Waiting.wantsRights

/-- Whether an update waits to take the value lock of a leaf. It lets no new reader in. -/
def valueAwaited (o : Overlap) (name : String) : Bool :=
  o.waiting.any (Waiting.publishes name)

def writerTaken (o : Overlap) (name : String) : Bool :=
  o.stopped.hasWriter name || o.valueAwaited name

/-! ### Who has to wait -/

/-- How a `free` would wait. It waits for the readers at the first leaf that it may remove,
or at the root if there is no chain; if there is nothing but undeletable leaves it is refused
without waiting. -/
def waitFree? (o : Overlap) : Option Waiting :=
  if o.plant.root.isUndeletable then none
  else if o.rightsTaken then some .freeing
  else if o.plant.isDefunct then none
  else
    let passed := (o.plant.chain.takeWhile Leaf.isUndeletable).length
    let removes := passed < o.plant.chain.length || o.plant.chain.isEmpty
    if o.stopped.isReader && removes then some (.sweeping passed) else none

variable [KeyHash]

/-- Whether a property holds of the name of the leaf that a key has. -/
def ofLeaf (o : Overlap) (key : String) (property : String → Bool) : Bool :=
  match o.plant.find? key with
  | some leaf => property leaf.name
  | none => false

def readsAwaited (o : Overlap) : Call → Bool
  | .get key _ | .getAs _ key | .getAll key | .probe key _ | .numElements key
  | .elementSize key _ => o.ofLeaf key o.valueAwaited
  | .type => o.ofLeaf rootKey o.valueAwaited
  | .views | .exported _ =>
    !o.plant.isDefunct &&
      (o.plant.root :: o.plant.chain).any fun leaf => o.valueAwaited leaf.name
  | _ => false

def waitSet? (o : Overlap) (key : String) (seed : Seed) (values : List Value) :
    Option Waiting :=
  match o.plant.find? key with
  | some leaf =>
    if leaf.seed ≠ seed then none
    else if o.writerTaken leaf.name then some (.updating leaf.name seed values)
    else
      match Plant.renewal (o.plant.place? key == some .root) leaf seed values with
      | .ok elements =>
        if o.stopped.readsValue leaf.name then some (.publishing leaf.name elements) else none
      | .error _ => none
  | none =>
    if !o.plant.isDefunct && seed.isValid && o.rightsTaken then some (.inserting key seed values)
    else none

def waitFlags? (o : Overlap) (key : String) (flags : LeafFlags) : Option Waiting :=
  match o.plant.find? key with
  | some leaf => if o.writerTaken leaf.name then some (.flagging leaf.name flags) else none
  | none => none

/-- How a removal would wait. One that is refused at its first look does not. -/
def waitDelete? (o : Overlap) (key : String) : Option Waiting :=
  match o.plant.place? key with
  | some (.link index) =>
    if (o.plant.chain[index]?).any Leaf.isUndeletable then none
    else if o.rightsTaken then some (.deleting key)
    else if o.stopped.isReader then some (.removing key index)
    else none
  | some .root | none => none

/-- The names of the leaves before the first one for which an update waits, and of the rest. -/
def namesUpToAwaited (o : Overlap) : List String × List String :=
  o.plant.names.span fun name => !o.valueAwaited name

/-- How a read waits. A read of more than one leaf has read those before the awaited one. -/
def waitingRead (o : Overlap) : Call → Waiting
  | .exported order =>
    let (before, left) := o.namesUpToAwaited
    .exporting order (o.plant.entriesOf before) left
  | .views =>
    let (before, left) := o.namesUpToAwaited
    .viewing o.plant.length o.plant.isDefunct (before.map o.plant.view) left
  | call => .reading call

/-- How a call would wait if it were made now; `none` if it would not. -/
def wait? (o : Overlap) (call : Call) : Option Waiting :=
  match call with
  | .set key seed values => o.waitSet? key seed values
  | .setFlags key flags => o.waitFlags? key flags
  | .delete key => o.waitDelete? key
  | .free => o.waitFree?
  | _ => if o.readsAwaited call then some (o.waitingRead call) else none

/-! ### Steps -/

/-- A call that is made and answered while another is stopped. The host's word is refused if
the value lock of its leaf is not free: for writing as long as the leaf is being read, for
reading as soon as an update waits for that reader. -/
def answerNow (o : Overlap) (call : Call) : Outcome Answer :=
  match call with
  | .setHostWord key _ =>
    if o.ofLeaf key fun name => o.stopped.readsValue name then
      ⟨.unit (.error .concurrency), o.plant, []⟩
    else o.plant.perform call
  | .hostWordOf key =>
    if o.ofLeaf key o.valueAwaited then ⟨.word (.error .concurrency), o.plant, []⟩
    else o.plant.perform call
  | _ => o.plant.perform call

def start (o : Overlap) (call : Call) : Overlap :=
  match o.wait? call with
  | some w =>
    { o with
      plant := if w.marksRoot then o.plant.mark else o.plant
      started := o.started ++ [.waiting w] }
  | none =>
    let outcome := o.answerNow call
    { o with plant := outcome.plant, started := o.started ++ [.ended outcome.answer] }

/-- One step. A call that is started has no answer yet. -/
def step (o : Overlap) : Step → Overlap × Option Answer
  | .now call =>
    let outcome := o.answerNow call
    ({ o with plant := outcome.plant }, some outcome.answer)
  | .start call => (o.start call, none)

def steps (o : Overlap) : List Step → Overlap × List (Option Answer)
  | [] => (o, [])
  | s :: rest =>
    let (next, answer) := o.step s
    let (last, answers) := steps next rest
    (last, answer :: answers)

/-! ### The end -/

/-- Serves the started calls that stand on leaves, in the order of starting. The others go on
waiting. -/
def serveLeaves (seen p : Plant) : List Started → List Started × Plant
  | [] => ([], p)
  | .ended answer :: rest =>
    let (left, last) := serveLeaves seen p rest
    (.ended answer :: left, last)
  | .waiting w :: rest =>
    if w.wantsRights then
      let (left, last) := serveLeaves seen p rest
      (.waiting w :: left, last)
    else
      let (answer, next) := w.finish seen p
      let (left, last) := serveLeaves seen next rest
      (.ended answer :: left, last)

/-- Serves all started calls that still wait, in the order of starting. Reads that wait have seen
the plant as it was when the updates had left. -/
def serve (seen p : Plant) : List Started → List Answer × Plant
  | [] => ([], p)
  | .ended answer :: rest =>
    let (answers, last) := serve seen p rest
    (answer :: answers, last)
  | .waiting w :: rest =>
    let (answer, next) := w.finish seen p
    let (answers, last) := serve seen next rest
    (answer :: answers, last)

/-- Serves all started calls in their turns. -/
def serveAll (seen p : Plant) (started : List Started) : List Answer × Plant :=
  let (left, settled) := serveLeaves seen p started
  serve seen settled left

/-- What the calls of an overlap answered, and the plant that is left. A step that starts a call
has no answer. -/
structure Report where
  stopped : Answer
  during : List (Option Answer)
  started : List Answer
  plant : Plant

/-- Lets the stopped call go on, and then serves the started ones. An update that waited for a
reader of the value puts its elements in place before anything else. -/
def finish (o : Overlap) (during : List (Option Answer)) : Report :=
  let (answer, resumed) := o.stopped.finish o.plant
  let published := o.waiting.foldl Waiting.publish resumed
  let (started, last) := serveAll published published o.started
  ⟨answer, during, started, last⟩

/-- A whole overlap: a call is stopped, the steps are made, and the call goes on. -/
def run (p : Plant) (call : Call) (script : List Step) : Report :=
  let (stopped, plant) := Stopped.begin p call
  let (last, during) := steps ⟨plant, stopped, []⟩ script
  last.finish during

end Overlap

end PlantStore
