import PlantStore.Plant.Basic
import PlantStore.Text.Record

/-! # Describing a plant

The description of a plant shows how it is built: the root with its stored key, hash, seed
and flag word, whether a chain hangs on it, and the locks by name. The values are not shown,
since they are read under a lock only. -/

namespace PlantStore

open Text

def StoredKey.describe : StoredKey → String
  | .inline length buffer =>
    record "Inline" [("len", numeral length.toNat),
      ("buf", "[" ++ String.intercalate ", " (buffer.toList.map fun b => numeral b.toNat) ++ "]")]
  | .separate text => "Heap(" ++ String.ofList (quoted text) ++ ")"

def describeLock (kind name : String) : String :=
  openRecord kind [("name", String.ofList (quoted name))]

/-- The description of a root, with that of the link to the chain behind it. -/
def Leaf.describe (leaf : Leaf) (next : String) : String :=
  record "Leaf"
    [("key", leaf.key.describe),
     ("hash", numeral leaf.hash.toNat),
     ("seed", leaf.seed.describe),
     ("flags", numeral leaf.flags.bits.toNat),
     ("data", record "Guarded" [("cell", openRecord "UnsafeCell" [])]),
     ("next", next),
     ("locks", record "LockGroup"
       [("value", describeLock "RwSlot" "leaf value lock"),
        ("link", describeLock "RwSlot" "leaf link lock"),
        ("writer", describeLock "MutexSlot" "leaf writer mutex")])]

def Plant.describe (p : Plant) : String :=
  record "Plant"
    [("root", p.root.describe (if p.chain.isEmpty then "null" else "linked")),
     ("locks", record "PlantLocks"
       [("traversals", describeLock "RwSlot" "plant traversal counter"),
        ("escalation", describeLock "MutexSlot" "plant escalation mutex")]),
     ("debug", describeBool p.isDebug)]

end PlantStore
