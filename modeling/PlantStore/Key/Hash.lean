import PlantStore.Text.Utf8

/-! # Hashing keys

Every leaf stores a 32-bit hash of its key, and a search compares hashes before it compares
keys. The hash is a parameter of the store: `KeyHash` supplies it, and the instance below is
the one the store is used with. What a search finds does not depend on the choice, since the
keys themselves are compared whenever the hashes agree. -/

namespace PlantStore

class KeyHash where
  hash : String → UInt32

def hashStart : UInt32 := 5381

/-- One step of the multiplicative hash: times 33, plus the next byte, modulo `2 ^ 32`. -/
def hashStep (h : UInt32) (b : UInt8) : UInt32 := h * 33 + b.toUInt32

/-- The multiplicative hash of a key, byte by byte over its UTF-8 form. -/
def hashKey (key : String) : UInt32 := (Text.utf8Bytes key).foldl hashStep hashStart

instance : KeyHash where
  hash := hashKey

end PlantStore
