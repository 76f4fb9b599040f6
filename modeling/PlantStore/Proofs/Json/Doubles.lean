import PlantStore.Proofs.Decimal.Fewest
import PlantStore.Proofs.Decimal.Nearest
import PlantStore.Proofs.Decimal.Significant
import PlantStore.Proofs.Json.Agreement
import PlantStore.Proofs.Reading.Agreement
import PlantStore.Value.Describe

/-! # Doubles are read back

A finite double is written in three layouts: one for each export and one for descriptions. Each
text is a numeral that is read as this double, to the bit, and no numeral with fewer significant
digits is. A double that is not finite is a null in both exports. -/

namespace PlantStore

/-! ### Texts of doubles -/

/-- A numeral restores a double: it is read as this double and no other one, and no numeral with
fewer significant digits is. -/
structure Numeral.Restores (n : Numeral) (d : Binary64) : Prop where
  reads : ∀ e, n.ReadsAs e ↔ e = d
  fewest : ∀ other : Numeral, other.WellFormed → other.ReadsAs d →
    n.significant.length ≤ other.significant.length

namespace Decimal.Layout

variable (l : Layout) {d : Binary64}

theorem abs_value_numeral (negative : Bool) (d : Decimal) :
    |(l.numeral negative d).value| = d.value := by
  have hvalue : 0 ≤ d.value := mul_nonneg (Nat.cast_nonneg _) (zpow_nonneg (by norm_num) _)
  rw [l.value_numeral, abs_mul, abs_of_nonneg hvalue]
  split <;> simp

/-- The shortest decimal of a finite double is read as it, in every layout. -/
theorem readsAs_numeral (hfinite : d.isFinite = true) :
    (l.numeral d.isNegative (shortest l.tie d.magnitude)).ReadsAs d where
  sign := l.negative_numeral _ _
  nearest := by
    rw [Binary64.isNearest_iff_rounds hfinite (abs_nonneg _), abs_value_numeral]
    exact rounds_shortest l.tie d.magnitude

/-- In every layout the shortest decimal of a finite double restores it. -/
theorem restores_numeral (hfinite : d.isFinite = true) :
    (l.numeral d.isNegative (shortest l.tie d.magnitude)).Restores d where
  reads := by
    intro e
    constructor
    · intro he
      exact he.unique (l.readsAs_numeral hfinite)
    · rintro rfl
      exact l.readsAs_numeral hfinite
  fewest := by
    intro other hother hreads
    obtain ⟨digits, exponent, hlength, hvalue⟩ := hother.exists_abs_value_eq
    have hrounds := (Binary64.isNearest_iff_rounds hfinite (abs_nonneg _)).mp hreads.nearest
    rw [hvalue] at hrounds
    exact l.length_significant_le _ (digits_shortest_lt l.tie d.isDouble_magnitude hlength hrounds)

end Decimal.Layout

/-- The text of a double is the numeral of its shortest decimal. -/
theorem Binary64.scan_write (d : Binary64) (l : Decimal.Layout) :
    Numeral.scan (d.write l) =
      some (l.numeral d.isNegative (Decimal.shortest l.tie d.magnitude), []) := by
  have hplain := Decimal.isPlain_shortest l.tie d.magnitude
  have hscan := @Numeral.WellFormed.scan_text _ (l.wellFormed_numeral d.isNegative hplain) []
    (by simp [Numeral.Stops])
  rwa [List.append_nil, l.text_numeral] at hscan

/-! ### Documents of doubles -/

/-- The document of a double in an export. In the order of the chain its numeral has no exponent. -/
inductive Binary64.IsDocumented (order : ExportOrder) (d : Binary64) : Json → Prop
  | finite {text : List Char} {n : Numeral} (hfinite : d.isFinite = true)
    (hscan : Numeral.scan text = some (n, [])) (hrestores : n.Restores d)
    (hplain : order = .chain → n.exponent = none) : IsDocumented order d (.number text)
  | notFinite (hfinite : d.isFinite = false) : IsDocumented order d .null

theorem Binary64.isDocumented_document (order : ExportOrder) (d : Binary64) :
    d.IsDocumented order ((Value.double d).document order) := by
  rw [Value.document]
  cases hfinite : d.isFinite with
  | true =>
      refine .finite hfinite (d.scan_write order.doubles)
        (order.doubles.restores_numeral hfinite) ?_
      rintro rfl
      exact Decimal.Layout.exponent_numeral rfl _ _
  | false => exact .notFinite hfinite

/-- The description of a finite double restores it. -/
theorem Binary64.exists_describe_eq {d : Binary64} (hfinite : d.isFinite = true) :
    ∃ text n, (Value.double d).describe = "Double(" ++ String.ofList text ++ ")" ∧
      Numeral.scan text = some (n, []) ∧ n.Restores d := by
  have hnumber : d.isNaN = false := isNaN_eq_false_iff.mpr (isFinite_iff.mp hfinite).le
  refine ⟨d.write describedDouble, _, ?_, d.scan_write _,
    describedDouble.restores_numeral hfinite⟩
  simp [Value.describe, describe, hfinite, hnumber]

/-! ### Plants -/

namespace Plant

section

variable [KeyHash]

/-- A value that is read at an index is there in what the leaf presents. -/
theorem Presents.getElem?_of_get {p : Plant} {key : String} {values : List Value}
    (h : p.Presents key values) {index : Nat} {v : Value} (hget : p.get key index = .ok v) :
    values[index]? = some v := by
  rw [h.get] at hget
  cases hindex : values[index]? with
  | none =>
      rw [hindex] at hget
      cases hget
  | some w =>
      rw [hindex] at hget
      exact congrArg some (Except.ok.inj hget)

/-- A leaf that is found is an entry of the exports, under its name. -/
theorem WellFormed.mem_entries {p : Plant} (h : p.WellFormed) {key : String} {leaf : Leaf}
    {values : List Value} (hfind : p.find? key = some leaf) (hholds : leaf.Holds values) :
    (leafName key, values) ∈ p.entries := by
  obtain ⟨hd, hleaf, hname⟩ := h.find?_eq_some_iff.mp hfind
  have hlisted : leafName key ∈ p.names := by
    rw [names, if_neg (Bool.eq_false_iff.mp hd), ← hname]
    exact List.mem_map.mpr ⟨leaf, hleaf, rfl⟩
  have hvalues : p.getAll (leafName key) = .ok values :=
    (presents_of_find? ((h.find?_leafName key).trans hfind) hholds).getAll
  refine List.mem_filterMap.mpr ⟨leafName key, hlisted, ?_⟩
  rw [hvalues]
  rfl

/-- A value of a leaf is written in the array of the leaf, at its index. -/
theorem WellFormed.mem_exported {p : Plant} (h : p.WellFormed) (order : ExportOrder) {key : String}
    {index : Nat} {v : Value} (hget : p.get key index = .ok v) :
    ∃ members items, Json.read? (p.exported order) = some (.object members) ∧
      (leafName key, .array items) ∈ members ∧ items[index]? = some (v.document order) := by
  cases hfind : p.find? key with
  | none =>
      rw [get, ask_of_find?_none hfind] at hget
      cases hget
  | some leaf =>
      have hleaf := h.leaf_wellFormed leaf (h.find?_eq_some_iff.mp hfind).2.1
      obtain ⟨values, hholds⟩ := hleaf.holds
      have hentry := (order.perm_arrange p.entries).symm.subset (h.mem_entries hfind hholds)
      have hvalue := (presents_of_find? hfind hholds).getElem?_of_get hget
      refine ⟨order.members p.entries, values.map (Value.document order), p.read?_exported order,
        List.mem_map.mpr ⟨_, hentry, rfl⟩, ?_⟩
      rw [List.getElem?_map, hvalue, Option.map_some]

/-- The doubles of a reachable plant are read back. In each export the array of the leaf has the
text of the double at its index: a numeral that restores it, without an exponent in the order of the
chain, or a null if the double is not finite. Its description has a numeral that restores it too. -/
theorem exported_doubles_read_back {p : Plant} (hp : p.Reachable) {key : String} {index : Nat}
    {d : Binary64} (hget : p.get key index = .ok (.double d)) :
    (∀ order, ∃ members items item,
      Json.read? (p.exported order) = some (.object members) ∧
      (leafName key, .array items) ∈ members ∧ items[index]? = some item ∧
      Value.exported order (.double d) = String.ofList (item.write order.escapesSlash) ∧
      d.IsDocumented order item) ∧
    (d.isFinite = true → ∃ text n,
      (Value.double d).describe = "Double(" ++ String.ofList text ++ ")" ∧
      Numeral.scan text = some (n, []) ∧ n.Restores d) := by
  refine ⟨fun order => ?_, Binary64.exists_describe_eq⟩
  obtain ⟨members, items, hread, hmember, hitem⟩ := hp.wellFormed.mem_exported order hget
  exact ⟨members, items, _, hread, hmember, hitem, rfl, d.isDocumented_document order⟩

end

/-- A negative zero, the least positive double and one that is not a number. -/
theorem exported_doubles_read_back_of_extremes :
    let p := ((Plant.make 1 false).perform (.set "v" .double
      [.double ⟨0x8000000000000000⟩, .double ⟨1⟩, .double ⟨0x7ff8000000000000⟩])).plant
    p.Reachable ∧
    p.get "v" 0 = .ok (.double ⟨0x8000000000000000⟩) ∧
    p.get "v" 1 = .ok (.double ⟨1⟩) ∧
    p.get "v" 2 = .ok (.double ⟨0x7ff8000000000000⟩) ∧
    (∃ members items text n, Json.read? (p.exported .chain) = some (.object members) ∧
      ("v", .array items) ∈ members ∧ items[0]? = some (.number text) ∧
      Numeral.scan text = some (n, []) ∧ n.exponent = none ∧
      n.Restores ⟨0x8000000000000000⟩) ∧
    (∃ text n, (Value.double ⟨1⟩).describe = "Double(" ++ String.ofList text ++ ")" ∧
      Numeral.scan text = some (n, []) ∧ n.Restores ⟨1⟩) ∧
    ∀ order, ∃ members items, Json.read? (p.exported order) = some (.object members) ∧
      ("v", .array items) ∈ members ∧ items[2]? = some .null := by
  intro p
  have hp : p.Reachable := .call (.make 1 false) _
  have hzero : p.get "v" 0 = .ok (.double ⟨0x8000000000000000⟩) := by decide +kernel
  have hleast : p.get "v" 1 = .ok (.double ⟨1⟩) := by decide +kernel
  have hnone : p.get "v" 2 = .ok (.double ⟨0x7ff8000000000000⟩) := by decide +kernel
  have hname : leafName "v" = "v" := by decide
  refine ⟨hp, hzero, hleast, hnone, ?_, ?_, fun order => ?_⟩
  · obtain ⟨members, items, item, hread, hmember, hitem, -, hdocument⟩ :=
      (exported_doubles_read_back hp hzero).1 .chain
    rw [hname] at hmember
    cases hdocument with
    | finite _ hscan hrestores hplain =>
        exact ⟨members, items, _, _, hread, hmember, hitem, hscan, hplain rfl, hrestores⟩
    | notFinite hfinite => exact absurd hfinite (by decide)
  · exact (exported_doubles_read_back hp hleast).2 (by decide)
  · obtain ⟨members, items, item, hread, hmember, hitem, -, hdocument⟩ :=
      (exported_doubles_read_back hp hnone).1 order
    rw [hname] at hmember
    cases hdocument with
    | finite hfinite => exact absurd hfinite (by decide)
    | notFinite => exact ⟨members, items, hread, hmember, hitem⟩

end Plant
end PlantStore
