import PlantStore.Plant.Describe
import PlantStore.Plant.Export
import PlantStore.Plant.Remove

/-! # Calls and answers

Everything that can be asked of a plant, as data. `Plant.perform` carries one call out and
`Plant.run` a list of calls, one after the other, so that a statement about a whole history
is a statement about a list of calls.

A typed write is a `set` of one value under the seed that its kind has by itself; a pointer
also takes the seed to write it under. -/

namespace PlantStore

inductive Call
  | set (key : String) (seed : Seed) (values : List Value)
  | get (key : String) (index : Nat)
  | getAs (kind : ValueKind) (key : String)
  | getAll (key : String)
  | probe (key : String) (index : Nat)
  | numElements (key : String)
  | elementSize (key : String) (index : Nat)
  | seedOf (key : String)
  | flagsOf (key : String)
  | setFlags (key : String) (flags : LeafFlags)
  | hostWordOf (key : String)
  | setHostWord (key : String) (word : UInt64)
  | has (key : String)
  | delete (key : String)
  | free
  | keys
  | length
  | isEmpty
  | isDefunct
  | isDebug
  | type
  | views
  | exported (order : ExportOrder)
  | describe

namespace Call

/-- The write of one value under the seed that it has by itself. -/
def setValue (key : String) (v : Value) : Call := set key v.naturalSeed [v]

/-- The write of one pointer under a seed of the caller's choice. -/
def setPointer (key : String) (seed : Seed) (word : UInt64) : Call :=
  set key seed [.pointer word]

end Call

inductive Answer
  | unit (result : Result Unit)
  | value (result : Result Value)
  /-- A value whose kind the call has fixed. -/
  | typed (result : Result Value)
  | values (result : Result (List Value))
  | keys (result : Result (List String))
  | word (result : Result UInt64)
  | type (result : Result Int32)
  | count (n : Nat)
  | seed (s : Seed)
  | flags (flags : LeafFlags)
  | truth (b : Bool)
  | text (s : String)
  | views (length : Nat) (isDefunct : Bool) (leaves : List Plant.LeafView)

def Outcome.map {α β : Type} (f : α → β) (o : Outcome α) : Outcome β :=
  ⟨f o.answer, o.plant, o.events⟩

namespace Plant

/-- An answer that comes without any change. -/
def answering {α : Type} (p : Plant) (a : α) (events : List Event) : Outcome α :=
  ⟨a, p, events⟩

variable [KeyHash]

def perform (p : Plant) : Call → Outcome Answer
  | .set key seed values => (p.set key seed values).map .unit
  | .get key index => p.answering (.value (p.get key index)) (p.getEvents key index)
  | .getAs kind key => p.answering (.typed (p.getAs kind key)) (p.getEvents key 0)
  | .getAll key => p.answering (.values (p.getAll key)) []
  | .probe key index => p.answering (.unit (p.probe key index)) []
  | .numElements key => p.answering (.count (p.numElements key)) []
  | .elementSize key index => p.answering (.count (p.elementSize key index)) []
  | .seedOf key => p.answering (.seed (p.seedOf key)) []
  | .flagsOf key => p.answering (.flags (p.flagsOf key)) []
  | .setFlags key flags => (p.setFlags key flags).map .unit
  | .hostWordOf key => p.answering (.word (p.hostWordOf key)) []
  | .setHostWord key word => (p.setHostWord key word).map .unit
  | .has key => p.answering (.truth (p.has key)) []
  | .delete key => (p.delete key).map .unit
  | .free => p.free.map .unit
  | .keys => p.answering (.keys p.keys) []
  | .length => p.answering (.count p.length) []
  | .isEmpty => p.answering (.truth p.isEmpty) []
  | .isDefunct => p.answering (.truth p.isDefunct) []
  | .isDebug => p.answering (.truth p.isDebug) []
  | .type => p.answering (.type p.type) (p.getEvents rootKey 0)
  | .views => p.answering (.views p.length p.isDefunct p.views) []
  | .exported order => p.answering (.text (p.exported order)) []
  | .describe => p.answering (.text p.describe) []

/-- Carries out a list of calls: the plant after all of them, and the outcome of each. -/
def run (p : Plant) : List Call → Plant × List (Outcome Answer)
  | [] => (p, [])
  | call :: calls =>
    let first := p.perform call
    let (last, outcomes) := run first.plant calls
    (last, first :: outcomes)

end Plant

end PlantStore
