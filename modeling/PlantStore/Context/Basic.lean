import PlantStore.Context.Table

/-! # Contexts

A host negotiates a context once, before it makes plants. The versions 200 to 202 are
served; a newer one is refused, or served as 202 if the host permits it. The context keeps
the version that is served, all option bits, and the tables of operations. -/

namespace PlantStore

def newestVersion : Int32 := 202

def oldestVersion : Int32 := 200

/-! ### Negotiation -/

/-- What a negotiation reports. -/
inductive NegotiationEvent
  | tooOld (version : Int32)
  | tooNew (version : Int32)
  /-- A newer version is served as the newest. -/
  | clamped (version : Int32)
  /-- A context with the option `debug` was made. -/
  | initialised (version : Int32) (flags : InitFlags)
  deriving DecidableEq, Repr

namespace NegotiationEvent

def level : NegotiationEvent → Level
  | tooOld _ | tooNew _ => .warn
  | clamped _ | initialised .. => .debug

def text : NegotiationEvent → String
  | tooOld version =>
    s!"ABI {version.toInt} is older than the oldest supported ({oldestVersion.toInt})"
  | tooNew version =>
    s!"ABI {version.toInt} is newer than supported ({newestVersion.toInt})"
  | clamped version => s!"ABI {version.toInt} requested, serving {newestVersion.toInt}"
  | initialised version flags =>
    s!"weed initialised: ABI {version.toInt}, flags {flags.describe}"

def line (event : NegotiationEvent) : String := event.level.name ++ " " ++ event.text

end NegotiationEvent

/-- A negotiated version with its options and tables. -/
structure Context where
  version : Int32
  flags : InitFlags
  table : HostTable

namespace Context

/-- The version that is served if another is requested, with what choosing it reports. -/
def negotiate (requested : Int32) (flags : InitFlags) :
    Result Int32 × List NegotiationEvent :=
  if requested < oldestVersion then (.error .badVersion, [.tooOld requested])
  else if requested ≤ newestVersion then (.ok requested, [])
  else if flags.contains .permissive then (.ok newestVersion, [.clamped requested])
  else (.error .badVersion, [.tooNew requested])

def newPlant (c : Context) (type : Int32) : Outcome Unit := c.table.plugin.plantNew type

variable [KeyHash]

def serving (version : Int32) (flags : InitFlags) : Context :=
  ⟨version, flags, .ofFlags flags⟩

/-- The newest version without options, for which nothing has to be negotiated. -/
def standard : Context := serving newestVersion .empty

def init (requested : Int32) (flags : InitFlags) : Result Context × List NegotiationEvent :=
  match negotiate requested flags with
  | (.ok version, events) =>
    (.ok (serving version flags),
      events ++ if flags.contains .debug then [.initialised version flags] else [])
  | (.error e, events) => (.error e, events)

/-- Carries a call out, through the tables if its operation is in one of them. -/
def perform (c : Context) (p : Plant) : Call → Outcome Answer
  | .set key seed values => (c.table.plugin.leafSet p key seed values).map .unit
  | .get key index => (c.table.plugin.leafGet p key index).map .value
  | .numElements key => p.answering (.count (c.table.plugin.leafNumElements p key)) []
  | .elementSize key index =>
    p.answering (.count (c.table.plugin.leafElementSize p key index)) []
  | .seedOf key => p.answering (.seed (c.table.plugin.leafSeedType p key)) []
  | .flagsOf key => p.answering (.flags (c.table.plugin.leafGetFlags p key)) []
  | .delete key => (c.table.plugin.leafDelete p key).map .unit
  | .free => (c.table.plugin.plantFree p).map .unit
  | .keys => p.answering (.keys (c.table.plugin.plantListLeaves p)) []
  | .setFlags key flags => (c.table.leafSetFlags p key flags).map .unit
  | .hostWordOf key => p.answering (.word (c.table.leafGetHostWord p key)) []
  | .setHostWord key word => (c.table.leafSetHostWord p key word).map .unit
  | call => p.perform call

def run (c : Context) (p : Plant) : List Call → Plant × List (Outcome Answer)
  | [] => (p, [])
  | call :: calls =>
    let first := c.perform p call
    let (last, outcomes) := run c first.plant calls
    (last, first :: outcomes)

end Context

/-! ### Description -/

open Text

def Context.describe (c : Context) : String :=
  record "Weed"
    [("abi", String.ofList (signedDecimal c.version.toInt)), ("flags", c.flags.describe),
     ("funcs", c.table.describe)]

end PlantStore
