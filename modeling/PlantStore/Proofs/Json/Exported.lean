import PlantStore.Proofs.Json.RoundTrip
import PlantStore.Proofs.Json.Written
import PlantStore.Proofs.Reachable

/-! # Exports are read back

An export is one JSON text, and reading it gives the keys of the plant in their order, each with
the array of its values. -/

namespace PlantStore

/-! ### Values -/

/-- Which documents stand for a value in an export. Numbers are compared as numbers, and a double
also by its text; a double without a number is a null. -/
inductive Represents (order : ExportOrder) : Value → Json → Prop
  | int {n : Int32} {token : List Char}
    (hvalue : Numeral.valueOf? token = some (n.toInt : ℚ)) :
    Represents order (.int n) (.number token)
  | int64 {n : Int64} {token : List Char}
    (hvalue : Numeral.valueOf? token = some (n.toInt : ℚ)) :
    Represents order (.int64 n) (.number token)
  | finite {d : Binary64} (hfinite : d.isFinite = true)
    (hvalue : Numeral.valueOf? (d.write order.doubles) =
      some ((if d.isNegative then -1 else 1) *
        (Decimal.shortest order.doubles.tie d.magnitude).value)) :
    Represents order (.double d) (.number (d.write order.doubles))
  | notFinite {d : Binary64} (hfinite : d.isFinite = false) : Represents order (.double d) .null
  | boolean (b : Bool) : Represents order (.boolean b) (.truth b)
  | string (s : String) : Represents order (.string s) (.text s)
  | pointer (word : UInt64) :
    Represents order (.pointer word)
      (.text ("0x" ++ String.ofList (Nat.toDigits 16 word.toNat)))

/-- The document of a value stands for it. -/
theorem Value.represents_document (order : ExportOrder) (v : Value) :
    Represents order v (v.document order) := by
  cases v with
  | int n => exact .int (Numeral.valueOf?_signedDecimal n.toInt)
  | int64 n => exact .int64 (Numeral.valueOf?_signedDecimal n.toInt)
  | double d =>
      rw [document]
      cases hfinite : d.isFinite with
      | true => exact .finite hfinite (d.valueOf?_write order.doubles)
      | false => exact .notFinite hfinite
  | boolean b => exact .boolean b
  | string s => exact .string s
  | pointer word =>
      have htext : String.ofList (Text.markedHexadecimal word.toNat) =
          "0x" ++ String.ofList (Nat.toDigits 16 word.toNat) := by
        rw [← String.toList_inj]
        simp [Text.markedHexadecimal, Text.hexadecimal]
      rw [document, htext]
      exact .pointer word

/-- The numbers in the document of a value are numerals. -/
theorem Value.valid_document (order : ExportOrder) (v : Value) : (v.document order).Valid := by
  have hint : ∀ n : Int, (Json.number (Text.signedDecimal n)).Valid := by
    intro n
    rw [← Numeral.text_ofInt]
    exact .number (Numeral.wellFormed_ofInt n)
  cases v with
  | int n => exact hint n.toInt
  | int64 n => exact hint n.toInt
  | double d =>
      rw [document]
      cases d.isFinite with
      | true =>
          have hplain := Decimal.isPlain_shortest order.doubles.tie d.magnitude
          rw [if_pos rfl, Binary64.write, ← Decimal.Layout.text_numeral]
          exact .number (order.doubles.wellFormed_numeral d.isNegative hplain)
      | false => exact .null
  | boolean b => exact .truth b
  | string s => exact .text s
  | pointer word => exact .text _

/-! ### Plants -/

/-- The document of any entries can be read back. -/
theorem ExportOrder.valid_document (order : ExportOrder) (entries : List (String × List Value)) :
    (order.document entries).Valid := by
  refine .object ?_
  intro member hmember
  obtain ⟨⟨key, values⟩, -, rfl⟩ := List.mem_map.mp hmember
  refine .array ?_
  intro item hitem
  obtain ⟨v, -, rfl⟩ := List.mem_map.mp hitem
  exact v.valid_document order

namespace Plant

section

variable [KeyHash]

/-- Every text of an export reads as the document that was exported. -/
theorem read?_exported (p : Plant) (order : ExportOrder) :
    Json.read? (p.exported order) = some (p.document order) :=
  (order.valid_document p.entries).read?_write order.escapesSlash

section

variable {p : Plant} (h : p.WellFormed)

include h

theorem WellFormed.getAll_of_mem_names {key : String} (hkey : key ∈ p.names) :
    ∃ values, p.getAll key = .ok values := by
  rw [names] at hkey
  cases hd : p.isDefunct with
  | true =>
      rw [if_pos hd] at hkey
      cases hkey
  | false =>
      rw [if_neg (Bool.eq_false_iff.mp hd)] at hkey
      obtain ⟨leaf, hleaf, rfl⟩ : ∃ leaf ∈ p.leaves, leaf.name = key := List.mem_map.mp hkey
      have hfind : p.find? leaf.name = some leaf := h.find?_eq_some_iff.mpr
        ⟨hd, hleaf, (h.name_filled hleaf).symm⟩
      obtain ⟨values, hholds⟩ := (h.leaf_wellFormed leaf hleaf).holds
      refine ⟨values, ?_⟩
      rw [getAll, ask_of_find?_some hfind]
      exact hholds.values_eq

/-- The entries of a well-formed plant are its keys with their values. -/
theorem WellFormed.entries_keys : p.entries.map Prod.fst = p.names := by
  have hall : ∀ keys : List String, (∀ key ∈ keys, key ∈ p.names) →
      (p.entriesOf keys).map Prod.fst = keys := by
    intro keys hkeys
    induction keys with
    | nil => rfl
    | cons key keys ih =>
        obtain ⟨values, hvalues⟩ := h.getAll_of_mem_names (hkeys key List.mem_cons_self)
        have hrest := ih fun other hother => hkeys other (List.mem_cons_of_mem _ hother)
        have hcons : p.entriesOf (key :: keys) = (key, values) :: p.entriesOf keys := by
          rw [entriesOf, List.filterMap_cons, hvalues]
          rfl
        rw [hcons, List.map_cons, hrest]
  exact hall p.names fun key hkey => hkey

theorem WellFormed.nodup_names : p.names.Nodup := by
  rw [names]
  split
  · exact List.nodup_nil
  · exact h.nodup

end

theorem getAll_of_mem_entries {p : Plant} {entry : String × List Value}
    (hentry : entry ∈ p.entries) : p.getAll entry.1 = .ok entry.2 := by
  obtain ⟨key, -, hsome⟩ := List.mem_filterMap.mp hentry
  cases hvalues : p.getAll key with
  | error e =>
      rw [hvalues] at hsome
      cases hsome
  | ok values =>
      rw [hvalues] at hsome
      obtain rfl : (key, values) = entry := Option.some.inj hsome
      exact hvalues

/-- The export of a reachable plant in the order of its chain is one JSON text. It reads as an
object whose members are the keys of the plant, in their order and each once, with the arrays of
their values. The export of a freed plant is the empty object. -/
theorem exported_reads_back {p : Plant} (hp : p.Reachable) :
    (∃ members : List (String × Json),
      Json.read? (p.exported .chain) = some (.object members) ∧
      p.keys = .ok (members.map Prod.fst) ∧ (members.map Prod.fst).Nodup ∧
      ∀ member ∈ members, ∃ values documents,
        p.getAll member.1 = .ok values ∧ member.2 = .array documents ∧
          List.Forall₂ (Represents .chain) values documents) ∧
    (p.isDefunct = true → p.exported .chain = "\x7b\x7d") := by
  have hwf := hp.wellFormed
  constructor
  · let member : String × List Value → String × Json := fun entry =>
      (entry.1, .array (entry.2.map (Value.document .chain)))
    have hkeys : (p.entries.map member).map Prod.fst = p.names := by
      rw [List.map_map]
      exact hwf.entries_keys
    refine ⟨p.entries.map member, p.read?_exported .chain, ?_, ?_, ?_⟩
    · rw [hkeys]
      rfl
    · rw [hkeys]
      exact hwf.nodup_names
    · intro written hwritten
      obtain ⟨entry, hentry, rfl⟩ := List.mem_map.mp hwritten
      refine ⟨entry.2, entry.2.map (Value.document .chain), getAll_of_mem_entries hentry, rfl, ?_⟩
      rw [List.forall₂_map_right_iff, List.forall₂_same]
      exact fun v _ => v.represents_document .chain
  · intro hd
    have hentries : p.entries = [] := by
      rw [entries, names, if_pos hd]
      rfl
    rw [exported, hentries]
    rfl

end

/-- A key with a quote and a slash, and a text with a backslash and a control character. -/
theorem exported_of_escaped :
    let p := ((Plant.make 7 false).perform
      (.set "a\"/" .string [.string "\\", .string "\x00"])).plant
    p.Reachable ∧ ∃ members : List (String × Json),
      Json.read? (p.exported .chain) = some (.object members) ∧
      members.map Prod.fst = ["type", "a\"/"] := by
  intro p
  have hp : p.Reachable := .call (.make 7 false) _
  obtain ⟨⟨members, hread, hkeys, -, -⟩, -⟩ := exported_reads_back hp
  have hnames : p.keys = .ok ["type", "a\"/"] := by decide
  rw [hnames] at hkeys
  exact ⟨hp, members, hread, (Except.ok.inj hkeys).symm⟩

end Plant
end PlantStore
