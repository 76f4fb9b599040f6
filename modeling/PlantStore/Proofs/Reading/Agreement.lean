import PlantStore.Proofs.Encoding
import PlantStore.Proofs.Json.Exported

/-! # The readers of a leaf agree

A leaf can be asked for its values at once or one by one, for their number, for their sizes, for
its seed, or only for whether it is there. Each question does its own search and has its own way
with what is missing. In a well-formed plant all answers are told from one value list: the one
that the leaf holds. -/

namespace PlantStore

/-! ### Leaves that hold values -/

/-- What fits the seed of strings is a text. -/
theorem Value.texts_of_fits {values : List Value} (h : ∀ v ∈ values, v.fits .string = true) :
    ∃ texts : List String, values = texts.map .string := by
  induction values with
  | nil => exact ⟨[], rfl⟩
  | cons v values ih =>
      obtain ⟨texts, rfl⟩ := ih fun w hw => h w (List.mem_cons_of_mem v hw)
      have hv : (ValueKind.fits v.kind .string) = true := h v List.mem_cons_self
      cases v with
      | string t => exact ⟨t :: texts, rfl⟩
      | _ => cases hv

namespace Leaf

/-- The size at an index is that of the value there. -/
theorem Holds.sizeAt_eq {leaf : Leaf} {values : List Value} (h : leaf.Holds values)
    (index : Nat) :
    leaf.sizeAt index = (values[index]?).elim 0 fun v => (Element.ofValue v).size leaf.seed := by
  rw [sizeAt, h.2, List.getElem?_map]
  cases values[index]? with
  | none => rfl
  | some v => rfl

theorem Holds.sizeAt_of_string {leaf : Leaf} {texts : List String}
    (h : leaf.Holds (texts.map .string)) (hseed : leaf.seed = .string) (index : Nat) :
    leaf.sizeAt index = (texts[index]?).elim 0 fun t => (Text.utf8Bytes t).length := by
  rw [h.sizeAt_eq, List.getElem?_map, hseed]
  cases texts[index]? with
  | none => rfl
  | some t => rfl

theorem Holds.sizeAt_of_ne_string {leaf : Leaf} {values : List Value} (h : leaf.Holds values)
    (hseed : leaf.seed ≠ .string) (index : Nat) :
    leaf.sizeAt index = if index < values.length then leaf.seed.fixedSize else 0 := by
  rw [h.sizeAt_eq]
  by_cases hindex : index < values.length
  · rw [if_pos hindex, List.getElem?_eq_getElem hindex]
    exact Element.size_of_ne_string _ hseed
  · rw [if_neg hindex, List.getElem?_eq_none (Nat.le_of_not_lt hindex)]
    rfl

end Leaf

namespace Plant

section

variable [KeyHash]

/-! ### What the readers tell -/

/-- All that is told of a leaf is told of one value list. -/
structure Presents (p : Plant) (key : String) (values : List Value) : Prop where
  getAll : p.getAll key = .ok values
  numElements : p.numElements key = values.length
  fits : ∀ v ∈ values, v.fits (p.seedOf key) = true
  get : ∀ index, p.get key index = (values[index]?).elim (.error .noSuchElement) .ok
  probe : ∀ index,
    p.probe key index = if index < values.length then .ok () else .error .noSuchElement
  /-- The size of a string is the number of its bytes in UTF-8. -/
  size_string : p.seedOf key = .string → ∃ texts : List String, values = texts.map .string ∧
    ∀ index, p.elementSize key index =
      (texts[index]?).elim 0 fun t => (Text.utf8Bytes t).length
  size_fixed : p.seedOf key ≠ .string → ∀ index,
    p.elementSize key index = if index < values.length then (p.seedOf key).fixedSize else 0

/-- A key without a leaf is answered as an empty leaf without a type, or refused. -/
structure Lacks (p : Plant) (key : String) : Prop where
  getAll : p.getAll key = .error .noSuchLeaf
  numElements : p.numElements key = 0
  seedOf : p.seedOf key = .invalid
  get : ∀ index, p.get key index = .error .noSuchLeaf
  probe : ∀ index, p.probe key index = .error .noSuchLeaf
  elementSize : ∀ index, p.elementSize key index = 0

section

variable {p : Plant} {key : String}

/-- A leaf that holds values presents them. -/
theorem presents_of_find? {leaf : Leaf} {values : List Value} (hfind : p.find? key = some leaf)
    (hholds : leaf.Holds values) : p.Presents key values := by
  have hseed : p.seedOf key = leaf.seed := askOr_of_find?_some hfind _ _
  have hsize : ∀ index, p.elementSize key index = leaf.sizeAt index :=
    fun _ => askOr_of_find?_some hfind _ _
  refine ⟨(ask_of_find?_some hfind _).trans hholds.values_eq,
    (askOr_of_find?_some hfind _ _).trans hholds.length_eq, hseed ▸ hholds.1,
    fun index => (ask_of_find?_some hfind _).trans (hholds.valueAt_eq index), ?_, ?_, ?_⟩
  · intro index
    rw [probe, ask_of_find?_some hfind, hholds.length_eq]
  · intro hstring
    rw [hseed] at hstring
    obtain ⟨texts, rfl⟩ := Value.texts_of_fits (hstring ▸ hholds.1)
    exact ⟨texts, rfl, fun index => (hsize index).trans (hholds.sizeAt_of_string hstring index)⟩
  · intro hstring index
    rw [hseed] at hstring ⊢
    rw [hsize, hholds.sizeAt_of_ne_string hstring]

theorem lacks_of_find?_none (hfind : p.find? key = none) : p.Lacks key where
  getAll := ask_of_find?_none hfind _
  numElements := askOr_of_find?_none hfind _ _
  seedOf := askOr_of_find?_none hfind _ _
  get := fun _ => ask_of_find?_none hfind _
  probe := fun _ => ask_of_find?_none hfind _
  elementSize := fun _ => askOr_of_find?_none hfind _ _

/-- Probing comes to what reading comes to, with nothing in place of the value. -/
theorem Presents.code_probe {values : List Value} (h : p.Presents key values) (index : Nat) :
    (p.probe key index).code = (p.get key index).code := by
  rw [h.probe, h.get]
  by_cases hindex : index < values.length
  · rw [if_pos hindex, List.getElem?_eq_getElem hindex]
    rfl
  · rw [if_neg hindex, List.getElem?_eq_none (Nat.le_of_not_lt hindex)]
    rfl

theorem Lacks.code_probe (h : p.Lacks key) (index : Nat) :
    (p.probe key index).code = (p.get key index).code := by
  rw [h.probe, h.get]
  rfl

end

/-! ### Which keys have a leaf -/

section

variable {p : Plant} (h : p.WellFormed)

include h

/-- A key has a leaf whose readers agree, or it has none. -/
theorem WellFormed.presents_or_lacks (key : String) :
    p.has key = true ∧ p.seedOf key ≠ .invalid ∧ (∃ values, p.Presents key values) ∨
      p.has key = false ∧ p.Lacks key := by
  cases hfind : p.find? key with
  | none => exact .inr ⟨has_eq_false_iff.mpr hfind, lacks_of_find?_none hfind⟩
  | some leaf =>
      have hleaf := h.leaf_wellFormed leaf (h.find?_eq_some_iff.mp hfind).2.1
      obtain ⟨values, hholds⟩ := hleaf.holds
      refine .inl ⟨has_eq_true_iff.mpr ⟨leaf, hfind⟩, ?_, values, presents_of_find? hfind hholds⟩
      -- No leaf has the seed that stands for none.
      intro hinvalid
      have hseed : leaf.seed = .invalid := (askOr_of_find?_some hfind _ _).symm.trans hinvalid
      have hvalid := hleaf.seed_valid
      rw [hseed] at hvalid
      cases hvalid

theorem WellFormed.seedOf_ne_invalid_iff (key : String) :
    p.has key = true ↔ p.seedOf key ≠ .invalid := by
  rcases h.presents_or_lacks key with ⟨hhas, hseed, -⟩ | ⟨hhas, hlacks⟩
  · exact ⟨fun _ => hseed, fun _ => hhas⟩
  · rw [hhas, hlacks.seedOf]
    exact ⟨fun hf => (by cases hf), fun hne => absurd rfl hne⟩

/-- The keys that have a leaf are those that are listed, and the empty one. -/
theorem WellFormed.has_iff_mem_names (key : String) :
    p.has key = true ↔ key ∈ p.names ∨ key = "" ∧ p.isDefunct = false := by
  rw [has_eq_true_iff]
  constructor
  · rintro ⟨leaf, hfind⟩
    obtain ⟨hd, hleaf, hname⟩ := h.find?_eq_some_iff.mp hfind
    -- The empty key names the root, but it is not listed.
    cases hempty : key.isEmpty with
    | true => exact .inr ⟨String.isEmpty_iff.mp hempty, hd⟩
    | false =>
        left
        rw [names, if_neg (Bool.eq_false_iff.mp hd), ← leafName_of_ne hempty, ← hname]
        exact List.mem_map.mpr ⟨leaf, hleaf, rfl⟩
  · rintro (hmem | ⟨rfl, hd⟩)
    · cases hd : p.isDefunct with
      | true =>
          rw [names, if_pos hd] at hmem
          cases hmem
      | false =>
          rw [names, if_neg (Bool.eq_false_iff.mp hd)] at hmem
          obtain ⟨leaf, hleaf, rfl⟩ : ∃ leaf ∈ p.leaves, leaf.name = key := List.mem_map.mp hmem
          exact ⟨leaf, h.find?_eq_some_iff.mpr ⟨hd, hleaf, (h.name_filled hleaf).symm⟩⟩
    · exact ⟨p.root, h.find?_eq_some_iff.mpr ⟨hd, List.mem_cons_self, h.root_name⟩⟩

end

omit [KeyHash] in
theorem length_eq_length_names (p : Plant) : p.length = p.names.length := by
  rw [length, names]
  cases p.isDefunct with
  | true => rfl
  | false => exact (congrArg (· + 1) (List.length_map _).symm)

/-! ### The theorem -/

/-- The readers of a reachable plant agree on every key and every index. A key has a leaf exactly
if it has a seed, exactly if it is listed or is the other name of the root of a live plant, and
exactly if all its values can be read. The values read at once are those read one by one, counted
and measured, and they fit the seed; without a leaf every reader says so. The keys are listed once
each, and as many as are counted. -/
theorem observers_agree {p : Plant} (h : p.Reachable) :
    (∀ key,
      (p.has key = true ↔ p.seedOf key ≠ .invalid) ∧
      (p.has key = true ↔ key ∈ p.names ∨ key = "" ∧ p.isDefunct = false) ∧
      (p.has key = true ↔ ∃ values, p.getAll key = .ok values) ∧
      (∀ index, (p.probe key index).code = (p.get key index).code) ∧
      (∀ values, p.getAll key = .ok values → p.Presents key values) ∧
      (p.has key = false → p.Lacks key)) ∧
    p.keys = .ok p.names ∧ p.length = p.names.length ∧ p.names.Nodup := by
  have hwf := h.wellFormed
  refine ⟨fun key => ?_, rfl, p.length_eq_length_names, hwf.nodup_names⟩
  refine ⟨hwf.seedOf_ne_invalid_iff key, hwf.has_iff_mem_names key, ?_⟩
  rcases hwf.presents_or_lacks key with ⟨hhas, -, values, hpresents⟩ | ⟨hhas, hlacks⟩
  · refine ⟨⟨fun _ => ⟨values, hpresents.getAll⟩, fun _ => hhas⟩, hpresents.code_probe, ?_, ?_⟩
    · intro others hothers
      obtain rfl : values = others := Except.ok.inj (hpresents.getAll.symm.trans hothers)
      exact hpresents
    · intro hnot
      rw [hhas] at hnot
      cases hnot
  · refine ⟨?_, hlacks.code_probe, ?_, fun _ => hlacks⟩
    · rw [hhas, hlacks.getAll]
      exact ⟨fun hf => (by cases hf), fun ⟨_, hok⟩ => (by cases hok)⟩
    · intro values hok
      rw [hlacks.getAll] at hok
      cases hok

end

/-- A text of two bytes and an empty one, the end of their leaf, and a key without one. -/
theorem observers_agree_of_texts :
    let p := ((Plant.make 7 false).perform (.set "a" .string [.string "é", .string ""])).plant
    p.Reachable ∧ p.Presents "a" [.string "é", .string ""] ∧ p.elementSize "a" 0 = 2 ∧
      p.get "a" 2 = .error .noSuchElement ∧ p.has "" = true ∧ p.Lacks "b" := by
  intro p
  have hp : p.Reachable := .call (.make 7 false) _
  obtain ⟨hkeys, -, -, -⟩ := observers_agree hp
  obtain ⟨-, -, -, -, hpresents, -⟩ := hkeys "a"
  obtain ⟨-, hlisted, -⟩ := hkeys ""
  obtain ⟨-, -, -, -, -, hlacks⟩ := hkeys "b"
  have ha := hpresents [.string "é", .string ""] (by decide)
  exact ⟨hp, ha, by decide, ha.get 2, hlisted.mpr (.inr ⟨rfl, by decide⟩), hlacks (by decide)⟩

end Plant
end PlantStore
