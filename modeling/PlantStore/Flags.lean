import PlantStore.Text.Digits

/-! # Flag words

A flag word is 32 bits, some of which have names. Leaves carry one, with room in its upper
half for marks of the store's own; a context carries another. A word may hold bits without
a name: they are kept, and described by one last hexadecimal number. -/

namespace PlantStore

def hasBits (word wanted : UInt32) : Bool := word &&& wanted == wanted

/-! ### Description -/

/-- The names of the flags of `word`, in the order of `names`: a flag is named if all of its
bits are set and not all of them belong to flags named before. With them come the bits that
no name covers. -/
def nameFlags : List (String × UInt32) → UInt32 → UInt32 → List String × UInt32
  | [], _, rest => ([], rest)
  | (name, bits) :: names, word, rest =>
    if hasBits word bits ∧ rest &&& bits ≠ 0 then
      let (more, left) := nameFlags names word (rest &&& ~~~bits)
      (name :: more, left)
    else
      nameFlags names word rest

/-- The description of a flag word: its names and the uncovered bits, joined by bars. -/
def describeFlags (kind : String) (names : List (String × UInt32)) (word : UInt32) : String :=
  let (named, rest) := nameFlags names word word
  let parts :=
    if rest ≠ 0 ∨ named.isEmpty then
      named ++ [String.ofList (Text.markedHexadecimal rest.toNat)]
    else
      named
  kind ++ "(" ++ String.intercalate " | " parts ++ ")"

/-! ### The flags of a leaf -/

/-- The flags of a leaf. The lower 16 bits belong to the callers, the upper 16 to the
store. -/
structure LeafFlags where
  bits : UInt32
  deriving DecidableEq, Repr

namespace LeafFlags

def empty : LeafFlags := ⟨0⟩

/-- The leaf outlives `delete` and `free`. -/
def undeletable : LeafFlags := ⟨0x1⟩

/-- The elements of the leaf cannot be replaced. -/
def immutable : LeafFlags := ⟨0x2⟩

def reserved : LeafFlags := ⟨0xFFFF0000⟩

/-- Set on the root while the removal of a leaf waits for the readers of the chain. -/
def removing : LeafFlags := ⟨0x10000⟩

def defunct : LeafFlags := ⟨0x20000⟩

def contains (flags wanted : LeafFlags) : Bool := hasBits flags.bits wanted.bits

def insert (flags more : LeafFlags) : LeafFlags := ⟨flags.bits ||| more.bits⟩

def remove (flags fewer : LeafFlags) : LeafFlags := ⟨flags.bits &&& ~~~fewer.bits⟩

/-- The flags as callers see them: without the store's half. -/
def visible (flags : LeafFlags) : LeafFlags := flags.remove reserved

/-- The word whose lower half is that of `wanted` and whose upper half stays as it is. -/
def replaceVisible (flags wanted : LeafFlags) : LeafFlags :=
  ⟨(flags.bits &&& reserved.bits) ||| (wanted.bits &&& ~~~reserved.bits)⟩

theorem ext_bits {a b : LeafFlags}
    (h : ∀ i < 32, a.bits.toBitVec.getLsbD i = b.bits.toBitVec.getLsbD i) : a = b := by
  cases a; cases b
  congr 1
  exact UInt32.eq_of_toBitVec_eq (BitVec.eq_of_getLsbD_eq h)

/-- After a replacement callers see exactly what they asked for, less the store's half. -/
@[simp] theorem visible_replaceVisible (flags wanted : LeafFlags) :
    (flags.replaceVisible wanted).visible = wanted.visible := by
  apply ext_bits
  intro i _
  simp only [visible, remove, replaceVisible, UInt32.toBitVec_and, UInt32.toBitVec_or,
    UInt32.toBitVec_not, BitVec.getLsbD_and, BitVec.getLsbD_or, BitVec.getLsbD_not]
  cases flags.bits.toBitVec.getLsbD i <;> cases wanted.bits.toBitVec.getLsbD i <;>
    cases reserved.bits.toBitVec.getLsbD i <;> simp

@[simp] theorem reserved_replaceVisible (flags wanted : LeafFlags) :
    (flags.replaceVisible wanted).bits &&& reserved.bits = flags.bits &&& reserved.bits := by
  apply UInt32.eq_of_toBitVec_eq
  apply BitVec.eq_of_getLsbD_eq
  intro i _
  simp only [replaceVisible, UInt32.toBitVec_and, UInt32.toBitVec_or, UInt32.toBitVec_not,
    BitVec.getLsbD_and, BitVec.getLsbD_or, BitVec.getLsbD_not]
  cases flags.bits.toBitVec.getLsbD i <;> cases wanted.bits.toBitVec.getLsbD i <;>
    cases reserved.bits.toBitVec.getLsbD i <;> simp

def isEmpty (flags : LeafFlags) : Bool := flags.bits == 0

/-- The named flags, in the order in which they are described. -/
def names : List (String × UInt32) :=
  [("UNDELETABLE", undeletable.bits), ("IMMUTABLE", immutable.bits),
    ("RESERVED", reserved.bits)]

def known : LeafFlags := (undeletable.insert immutable).insert reserved

def isKnown (flags : LeafFlags) : Bool := (flags.remove known).isEmpty

/-- The word without the bits that belong to no named flag. -/
def truncate (flags : LeafFlags) : LeafFlags := ⟨flags.bits &&& known.bits⟩

def describe (flags : LeafFlags) : String := describeFlags "LeafFlags" names flags.bits

end LeafFlags

/-! ### The options of a context -/

/-- The options that are fixed when a context is negotiated. -/
structure InitFlags where
  bits : UInt32
  deriving DecidableEq, Repr

namespace InitFlags

def empty : InitFlags := ⟨0⟩

/-- A newer version than the newest is served as the newest instead of being refused. -/
def permissive : InitFlags := ⟨0x1⟩

/-- Plants made through the context report every call. -/
def debug : InitFlags := ⟨0x2⟩

def contains (flags wanted : InitFlags) : Bool := hasBits flags.bits wanted.bits

def names : List (String × UInt32) :=
  [("PERMISSIVE", permissive.bits), ("DEBUG", debug.bits)]

def describe (flags : InitFlags) : String := describeFlags "InitFlags" names flags.bits

end InitFlags

end PlantStore
