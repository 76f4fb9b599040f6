import PlantStore.Decimal.Layout
import PlantStore.Json.Basic
import PlantStore.Plant.Read

/-! # Exporting a plant

A plant is exported as a JSON object that maps each key to the array of its values. There
are two exports of the same content. One keeps the order of the keys and writes doubles in
positional form only; the other sorts the keys by their bytes and gives very small and very
large doubles an exponent. -/

namespace PlantStore

/-- The order in which an export lists the leaves. -/
inductive ExportOrder
  | chain
  /-- Ascending bytes of the keys. -/
  | sorted
  deriving DecidableEq, Repr

namespace ExportOrder

/-- Doubles in an export. In the order of the chain they never have an exponent, and whole
numbers no fraction digit. Sorted, they are positional from `1e-5` to below `1e16` and then
show a fraction digit; outside they have a signed exponent. -/
def doubles : ExportOrder → Decimal.Layout
  | chain => { positional := none, showsFraction := false, signsExponent := false, tie := .up }
  | sorted =>
    { positional := some (-5, 16), showsFraction := true, signsExponent := true, tie := .toEven }

def escapesSlash : ExportOrder → Bool
  | chain => true
  | sorted => false

end ExportOrder

/-- The document of a value. Pointers are written as hexadecimal text, and a double that is
not finite has no number. -/
def Value.document (order : ExportOrder) : Value → Json
  | .int n => .number (Text.signedDecimal n.toInt)
  | .int64 n => .number (Text.signedDecimal n.toInt)
  | .double d => if d.isFinite then .number (d.write order.doubles) else .null
  | .boolean b => .truth b
  | .string s => .text s
  | .pointer word => .text (String.ofList (Text.markedHexadecimal word.toNat))

def Value.exported (order : ExportOrder) (v : Value) : String :=
  String.ofList ((v.document order).write order.escapesSlash)

/-- The order of keys by their bytes. -/
def bytesLe (a b : String) : Bool := Text.utf8Bytes a ≤ Text.utf8Bytes b

namespace ExportOrder

def arrange : ExportOrder → List (String × List Value) → List (String × List Value)
  | chain, entries => entries
  | sorted, entries => entries.mergeSort fun a b => bytesLe a.1 b.1

def document (order : ExportOrder) (entries : List (String × List Value)) : Json :=
  .object ((order.arrange entries).map fun (key, values) =>
    (key, .array (values.map (Value.document order))))

def text (order : ExportOrder) (entries : List (String × List Value)) : String :=
  String.ofList ((order.document entries).write order.escapesSlash)

end ExportOrder

namespace Plant

variable [KeyHash]

/-- The values of keys, one key after the other. A key without a leaf is passed over. -/
def entriesOf (p : Plant) (keys : List String) : List (String × List Value) :=
  keys.filterMap fun key => (p.getAll key).toOption.map (key, ·)

def entries (p : Plant) : List (String × List Value) := p.entriesOf p.names

def document (p : Plant) (order : ExportOrder) : Json := order.document p.entries

def exported (p : Plant) (order : ExportOrder) : String := order.text p.entries

end Plant

end PlantStore
