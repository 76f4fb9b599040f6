import PlantStore.Call

/-! # Tables of operations

Plugins do not call the store directly: they are handed a table of the operations that they
may call. A host has a larger table, which adds what only a host may do. Which operations are
in the tables is the same for every context; only whether new plants report their calls is
decided by its options. -/

namespace PlantStore

/-- The operations that a plugin may call. -/
structure PluginTable where
  plantNew : Int32 → Outcome Unit
  plantFree : Plant → Outcome (Result Unit)
  plantListLeaves : Plant → Result (List String)
  leafGet : Plant → String → Nat → Outcome (Result Value)
  leafSet : Plant → String → Seed → List Value → Outcome (Result Unit)
  leafNumElements : Plant → String → Nat
  leafElementSize : Plant → String → Nat → Nat
  leafSeedType : Plant → String → Seed
  leafGetFlags : Plant → String → LeafFlags
  leafDelete : Plant → String → Outcome (Result Unit)

/-- The operations of a host: those of its plugins and three more. -/
structure HostTable where
  plugin : PluginTable
  leafSetFlags : Plant → String → LeafFlags → Outcome (Result Unit)
  leafGetHostWord : Plant → String → Result UInt64
  leafSetHostWord : Plant → String → UInt64 → Outcome (Result Unit)

def HostTable.ofFlags [KeyHash] (flags : InitFlags) : HostTable where
  plugin := {
    plantNew := fun type => Plant.new type (flags.contains .debug)
    plantFree := Plant.free
    plantListLeaves := Plant.keys
    leafGet := fun p key index => p.answering (p.get key index) (p.getEvents key index)
    leafSet := Plant.set
    leafNumElements := Plant.numElements
    leafElementSize := Plant.elementSize
    leafSeedType := Plant.seedOf
    leafGetFlags := Plant.flagsOf
    leafDelete := Plant.delete }
  leafSetFlags := Plant.setFlags
  leafGetHostWord := Plant.hostWordOf
  leafSetHostWord := Plant.setHostWord

/-! ### Description -/

open Text

/-- The description of a plugin's table, which keeps its entries back. -/
def PluginTable.describe (_ : PluginTable) : String := openRecord "WeedFuncs" []

def HostTable.describe (t : HostTable) : String :=
  openRecord "HostFuncs" [("plugin", t.plugin.describe)]

end PlantStore
