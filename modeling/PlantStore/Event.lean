import PlantStore.Value.Describe

/-! # Log lines

A call reports what it does as a list of events, in the order in which they happen. Every
plant reports the leaves that it links and unlinks, and a `free` that leaves something
behind; a debug plant also reports the calls themselves. An event has a level and a text, and
a log keeps the events down to a level. -/

namespace PlantStore

inductive Level
  | warn | debug | trace
  deriving DecidableEq, Repr

namespace Level

/-- The place of a level, the most urgent first. -/
def rank : Level → Nat
  | warn => 0
  | debug => 1
  | trace => 2

def name : Level → String
  | warn => "WARN"
  | debug => "DEBUG"
  | trace => "TRACE"

end Level

/-- What a call on a plant reports. -/
inductive Event
  | created (type : Int32)
  | wrote (key : String) (seed : Seed) (count : Nat) (outcome : Result Unit)
  /-- An element was found and read. -/
  | read (key : String) (index : Nat) (outcome : Result Value)
  | deleted (key : String)
  | freed
  /-- Undeletable leaves are left after a `free`. -/
  | keptAlive (type : Option Int32)
  | linked (key : String) (isInline : Bool)
  | unlinked (key : String)

namespace Event

def level : Event → Level
  | created _ | wrote .. | read .. | deleted _ | freed => .debug
  | keptAlive _ => .warn
  | linked .. | unlinked _ => .trace

def describeType : Option Int32 → String
  | some type => s!"Some({type.toInt})"
  | none => "None"

/-- The text of an event. Keys stand in it as they are. -/
def text : Event → String
  | created type => s!"new plant of type {type.toInt}"
  | wrote key seed count outcome =>
    s!"set {key} ({seed.name}, {count} values): {describeUnit outcome}"
  | read key index outcome => s!"get {key}[{index}]: {describeResult Value.describe outcome}"
  | deleted key => s!"deleted {key}"
  | freed => "plant freed"
  | keptAlive type =>
    s!"plant of type {describeType type} kept alive by undeletable leaves"
  | linked key isInline => s!"linking new leaf {key} (inline key: {describeBool isInline})"
  | unlinked key => s!"freeing leaf {key}"

def line (event : Event) : String := event.level.name ++ " " ++ event.text

end Event

/-- The lines of a log that is kept down to a level. -/
def logLines (level : Level) (events : List Event) : List String :=
  (events.filter fun event => event.level.rank ≤ level.rank).map Event.line

end PlantStore
