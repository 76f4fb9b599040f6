import PlantStore.Error
import PlantStore.Text.Utf8
import PlantStore.Value

/-! # Elements: values as they are stored

The store copies the payload of a value into bytes of its own: numbers least significant
byte first, truth values as 32-bit numbers, strings in UTF-8. Pointer words are kept as they
are. Nothing in an element says what it holds; reading one takes the seed of its leaf, and
an element reads back as the value it was built from if the seed is the same. -/

namespace PlantStore

/-! ### Numbers as bytes -/

/-- The `count` low bytes of a number, the least significant first. -/
def littleEndian (count n : Nat) : List UInt8 :=
  match count with
  | 0 => []
  | count + 1 => UInt8.ofNat n :: littleEndian count (n / 256)

def ofLittleEndian : List UInt8 → Nat
  | [] => 0
  | b :: bytes => b.toNat + 256 * ofLittleEndian bytes

/-- The number in exactly `count` bytes, if there are that many. -/
def ofBytes? (count : Nat) (bytes : List UInt8) : Option Nat :=
  if bytes.length = count then some (ofLittleEndian bytes) else none

@[simp] theorem length_littleEndian (count n : Nat) : (littleEndian count n).length = count := by
  induction count generalizing n with
  | zero => rfl
  | succ count ih => simp [littleEndian, ih]

theorem ofLittleEndian_littleEndian (count n : Nat) :
    ofLittleEndian (littleEndian count n) = n % Nat.pow 256 count := by
  induction count generalizing n with
  | zero => simp [littleEndian, ofLittleEndian, Nat.mod_one]
  | succ count ih =>
    have hpower : Nat.pow 256 (count + 1) = 256 * Nat.pow 256 count := Nat.mul_comm ..
    rw [littleEndian, ofLittleEndian, ih, hpower, Nat.mod_mul]
    simp

theorem ofBytes?_littleEndian {count n : Nat} (h : n < Nat.pow 256 count) :
    ofBytes? count (littleEndian count n) = some n := by
  rw [ofBytes?, if_pos (length_littleEndian count n), ofLittleEndian_littleEndian,
    Nat.mod_eq_of_lt h]

/-! ### Elements -/

inductive Element
  /-- The store's own copy of the bytes of a value. -/
  | owned (bytes : List UInt8)
  /-- A word that belongs to the caller. -/
  | unowned (word : UInt64)
  deriving DecidableEq

namespace Element

def ofValue : Value → Element
  | .int n => .owned (littleEndian 4 n.toUInt32.toNat)
  | .int64 n => .owned (littleEndian 8 n.toUInt64.toNat)
  | .double d => .owned (littleEndian 8 d.bits.toNat)
  | .boolean b => .owned (littleEndian 4 (if b then 1 else 0))
  | .string s => .owned (Text.utf8Bytes s)
  | .pointer word => .unowned word

/-- The value that an element holds under a seed, if its bytes are of that form. -/
def value? (s : Seed) : Element → Option Value
  | .unowned word => some (.pointer word)
  | .owned bytes =>
    if s = .int then (ofBytes? 4 bytes).map fun n => .int (UInt32.ofNat n).toInt32
    else if s = .int64 then (ofBytes? 8 bytes).map fun n => .int64 (UInt64.ofNat n).toInt64
    else if s = .double then (ofBytes? 8 bytes).map fun n => .double ⟨UInt64.ofNat n⟩
    else if s = .boolean then (ofBytes? 4 bytes).map fun n => .boolean (n != 0)
    else if s = .string then (Text.ofUtf8? bytes).map .string
    else none

def decode (s : Seed) (e : Element) : Result Value :=
  match e.value? s with
  | some v => .ok v
  | none => .error .wrongSeedType

/-- The size that is reported for an element: the bytes of a string, otherwise the size that
the seed fixes. -/
def size (s : Seed) : Element → Nat
  | .owned bytes => if s = .string then bytes.length else s.fixedSize
  | .unowned _ => s.fixedSize

/-- The stored form of a whole value list. Nothing is stored unless the seed can be a leaf's
and every value fits it. -/
def encodeAll (s : Seed) (values : List Value) : Result (List Element) :=
  if s.isValid && values.all (·.fits s) then .ok (values.map ofValue)
  else .error .wrongSeedType

def decodeAll (s : Seed) (elements : List Element) : Result (List Value) :=
  elements.mapM (decode s)

theorem value?_ofValue {v : Value} {s : Seed} (h : v.fits s = true) :
    (ofValue v).value? s = some v := by
  cases v with
  | int n =>
    obtain rfl : s = .int := by simpa [Value.fits, Value.kind, ValueKind.fits] using h
    have hn : n.toUInt32.toNat < Nat.pow 256 4 := Nat.lt_of_lt_of_eq n.toUInt32.toNat_lt (by decide)
    simp only [ofValue, value?, if_true, ofBytes?_littleEndian hn, Option.map_some,
      UInt32.ofNat_toNat]
    rfl
  | int64 n =>
    obtain rfl : s = .int64 := by simpa [Value.fits, Value.kind, ValueKind.fits] using h
    have hn : n.toUInt64.toNat < Nat.pow 256 8 := Nat.lt_of_lt_of_eq n.toUInt64.toNat_lt (by decide)
    simp only [ofValue, value?, ofBytes?_littleEndian hn, Option.map_some,
      UInt64.ofNat_toNat]
    rfl
  | double d =>
    obtain rfl : s = .double := by simpa [Value.fits, Value.kind, ValueKind.fits] using h
    have hd : d.bits.toNat < Nat.pow 256 8 := Nat.lt_of_lt_of_eq d.bits.toNat_lt (by decide)
    simp only [ofValue, value?, ofBytes?_littleEndian hd, Option.map_some, UInt64.ofNat_toNat]
    rfl
  | boolean b =>
    obtain rfl : s = .boolean := by simpa [Value.fits, Value.kind, ValueKind.fits] using h
    cases b <;> rfl
  | string t =>
    obtain rfl : s = .string := by simpa [Value.fits, Value.kind, ValueKind.fits] using h
    simp only [ofValue, value?, Text.ofUtf8?_utf8Bytes, Option.map_some]
    rfl
  | pointer word => rfl

end Element

/-! ### Room for elements -/

def wordBytes : Nat := 8

/-- What the bytes of a list have to stay below. -/
def listBytesLimit : Nat := Nat.pow 2 63

/-- Makes room for a list of words, which is refused if its bytes cannot be counted. -/
def reserve (words : Nat) : Result Unit :=
  if words * wordBytes < listBytesLimit then .ok () else .error .memoryAllocation

end PlantStore
