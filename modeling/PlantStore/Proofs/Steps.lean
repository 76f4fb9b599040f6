import PlantStore.Proofs.Alter

/-! # What a write or a removal can do

One inversion lemma for each operation that changes a plant. It lists every way in which the
operation can end, with the answer, the plant afterwards, and what must have been the case
before; what is proved of runs goes through these lists and never back to the definitions. -/

namespace PlantStore
namespace Plant

/-- The elements that a write gives to a leaf are those of values that fit its seed, and to
the root it gives exactly one. -/
theorem renewal_eq_ok {atRoot : Bool} {leaf : Leaf} {seed : Seed} {values : List Value}
    {elements : List Element} (h : renewal atRoot leaf seed values = .ok elements) :
    leaf.seed = seed ∧ leaf.isImmutable = false ∧ (atRoot = true → values.length = 1) ∧
      Element.encodeAll seed values = .ok elements := by
  rw [renewal] at h
  split at h
  · cases h
  next hseed =>
    split at h
    · cases h
    next himm =>
      split at h
      · cases h
      next hroot =>
        refine ⟨Decidable.not_not.mp hseed, Bool.eq_false_iff.mpr himm, ?_, h⟩
        intro hat
        by_contra hlen
        exact hroot (by simpa [hat] using hlen)

/-- What a write asks of a leaf is its seed, its flags and whether it is the root. -/
theorem renewal_congr {atRoot : Bool} {a b : Leaf} (hseed : a.seed = b.seed)
    (hflags : a.flags = b.flags) (seed : Seed) (values : List Value) :
    renewal atRoot a seed values = renewal atRoot b seed values := by
  rw [renewal, renewal, hseed, Leaf.isImmutable, Leaf.isImmutable, hflags]

/-! ### Removing at a place -/

theorem removeAt_cases (p : Plant) (index : Nat) :
    (∃ e, (p.removeAt index).answer = .error e ∧ (p.removeAt index).plant = p) ∨
    (∃ leaf, p.chain[index]? = some leaf ∧ leaf.isUndeletable = false ∧
      (p.removeAt index).answer = .ok () ∧
      (p.removeAt index).plant = { p with chain := p.chain.eraseIdx index }) := by
  rw [removeAt]
  cases hleaf : p.chain[index]? with
  | none => exact .inl ⟨.noSuchLeaf, rfl, rfl⟩
  | some leaf =>
      dsimp only
      by_cases hu : leaf.isUndeletable = true
      · left
        rw [if_pos hu]
        exact ⟨.undeletable, rfl, rfl⟩
      · right
        rw [if_neg hu]
        exact ⟨leaf, rfl, Bool.eq_false_iff.mpr hu, rfl, rfl⟩

@[simp] theorem reportDeleted_answer (p : Plant) (key : String)
    (removal : Outcome (Result Unit)) : (p.reportDeleted key removal).answer = removal.answer := by
  rw [reportDeleted]
  split <;> rfl

@[simp] theorem reportDeleted_plant (p : Plant) (key : String)
    (removal : Outcome (Result Unit)) : (p.reportDeleted key removal).plant = removal.plant := by
  rw [reportDeleted]
  split <;> rfl

variable [KeyHash]

/-- A sweep of the chain ends with leaves left behind, or with a root that may not go, or with
a freed plant. -/
theorem freeFrom_cases (p : Plant) (start : Nat) :
    ((p.sweep start).chain ≠ [] ∧ (p.freeFrom start).answer = .error .undeletable ∧
      (p.freeFrom start).plant = p.sweep start) ∨
    ((p.sweep start).chain = [] ∧ p.root.isUndeletable = true ∧
      (p.freeFrom start).answer = .error .undeletable ∧
      (p.freeFrom start).plant = p.sweep start) ∨
    ((p.sweep start).chain = [] ∧ p.root.isUndeletable = false ∧
      (p.freeFrom start).answer = .ok () ∧ (p.freeFrom start).plant = (p.sweep start).bury) := by
  have hroot : (p.sweep start).root = p.root := rfl
  simp only [freeFrom, hroot]
  by_cases hchain : (p.sweep start).chain = []
  · right
    have hempty : (!(p.sweep start).chain.isEmpty) = false := by rw [hchain]; rfl
    rw [hempty]
    cases hu : p.root.isUndeletable with
    | true => exact .inl ⟨hchain, rfl, rfl, rfl⟩
    | false => exact .inr ⟨hchain, rfl, rfl, rfl⟩
  · left
    have hempty : (!(p.sweep start).chain.isEmpty) = true := by
      rw [Bool.not_eq_true', List.isEmpty_eq_false_iff]
      exact hchain
    rw [hempty]
    exact ⟨hchain, rfl, rfl⟩

theorem freeAfterWait_cases (p : Plant) :
    (p.isDefunct = true ∧ p.freeAfterWait.answer = .error .noSuchLeaf ∧
      p.freeAfterWait.plant = p) ∨
    (p.isDefunct = false ∧ p.freeAfterWait = p.freeFrom 0) := by
  rw [freeAfterWait]
  cases hd : p.isDefunct with
  | true => exact .inl ⟨rfl, rfl, rfl⟩
  | false => exact .inr ⟨rfl, rfl⟩

/-- A `free` is refused before it does anything, or it sweeps the chain. -/
theorem free_cases (p : Plant) :
    (p.root.isUndeletable = true ∧ p.free.answer = .error .undeletable ∧ p.free.plant = p) ∨
    (p.root.isUndeletable = false ∧ p.isDefunct = true ∧ p.free.answer = .error .noSuchLeaf ∧
      p.free.plant = p) ∨
    (p.root.isUndeletable = false ∧ p.isDefunct = false ∧ p.free = p.freeFrom 0) := by
  rw [free]
  cases hu : p.root.isUndeletable with
  | true => exact .inl ⟨rfl, rfl, rfl⟩
  | false =>
      right
      rw [if_neg Bool.false_ne_true]
      rcases p.freeAfterWait_cases with ⟨hd, ha, hp⟩ | ⟨hd, hf⟩
      · exact .inl ⟨rfl, hd, ha, hp⟩
      · exact .inr ⟨rfl, hd, hf⟩

/-- A removal of a leaf of the chain takes place where the leaf was found. -/
theorem delete_of_link {p : Plant} {key : String} {index : Nat}
    (h : p.place? key = some (.link index)) :
    p.delete key = p.reportDeleted key (p.removeAt index) := by
  rw [delete, h]

section

variable {p : Plant} (h : p.Searchable)

include h

/-! ### Writing -/

theorem Searchable.isDefunct_of_find? {key : String} {leaf : Leaf}
    (hfind : p.find? key = some leaf) : p.isDefunct = false :=
  (h.find?_eq_some_iff.mp hfind).1

omit h in
/-- A permitted update puts the elements in place. -/
theorem updateNow_of_renewal {key : String} {leaf : Leaf} (hfind : p.find? key = some leaf)
    {seed : Seed} {values : List Value} {elements : List Element}
    (hr : renewal (p.place? key == some .root) leaf seed values = .ok elements) :
    p.updateNow key seed values = ⟨.ok (), p.publish key elements, []⟩ := by
  rw [updateNow, update, hfind]
  dsimp only
  rw [hr]

omit h in
/-- An update that is not permitted changes nothing. -/
theorem updateNow_of_refused {key : String} {leaf : Leaf} (hfind : p.find? key = some leaf)
    {seed : Seed} {values : List Value} {e : StoreError}
    (hr : renewal (p.place? key == some .root) leaf seed values = .error e) :
    p.updateNow key seed values = ⟨.error e, p, []⟩ := by
  rw [updateNow, update, hfind]
  dsimp only
  rw [hr]

/-- A write to an existing leaf is refused, or it alters the elements of the leaf. -/
theorem Searchable.updateNow_cases (key : String) (seed : Seed) (values : List Value) :
    (∃ e, (p.updateNow key seed values).answer = .error e ∧
      (p.updateNow key seed values).plant = p) ∨
    (∃ leaf elements, p.find? key = some leaf ∧
      renewal (p.place? key == some .root) leaf seed values = .ok elements ∧
      (p.updateNow key seed values).answer = .ok () ∧
      (p.updateNow key seed values).plant =
        p.alter (leafName key) fun leaf => { leaf with elements := elements }) := by
  cases hfind : p.find? key with
  | none =>
      rw [updateNow, update, hfind]
      exact .inl ⟨.noSuchLeaf, rfl, rfl⟩
  | some leaf =>
      cases hr : renewal (p.place? key == some .root) leaf seed values with
      | error e =>
          rw [updateNow_of_refused hfind hr]
          exact .inl ⟨e, rfl, rfl⟩
      | ok elements =>
          rw [updateNow_of_renewal hfind hr]
          exact .inr ⟨leaf, elements, rfl, hr, rfl,
            h.modify_eq_alter (h.isDefunct_of_find? hfind) key _⟩

omit h in
/-- A write to the leaf of a key is an update of that leaf. -/
theorem set_of_find?_some {key : String} {leaf : Leaf} (hd : p.isDefunct = false)
    (hfind : p.find? key = some leaf) (seed : Seed) (values : List Value) :
    (p.set key seed values).answer = (p.updateNow key seed values).answer ∧
      (p.set key seed values).plant = (p.updateNow key seed values).plant := by
  have hhas : p.has key = true := has_eq_true_iff.mpr ⟨leaf, hfind⟩
  rw [set, store, if_neg (Bool.eq_false_iff.mp hd), if_pos hhas, updateNow]
  cases p.update key seed values with
  | error e => exact ⟨rfl, rfl⟩
  | ok after => exact ⟨rfl, rfl⟩

omit h in
/-- A change of the chain by a write is reported as the link of a new leaf. -/
theorem events_of_store {key : String} {seed : Seed} {values : List Value} {after : Plant}
    {events : List Event} (hstore : p.store key seed values = .ok (after, events)) :
    events = [] ∨ events = [.linked key (StoredKey.ofString key).isInline] := by
  rw [store] at hstore
  split at hstore
  · cases hstore
  split at hstore
  · cases hupdate : p.update key seed values with
    | error e =>
        rw [hupdate] at hstore
        cases hstore
    | ok q =>
        rw [hupdate] at hstore
        cases hstore
        exact .inl rfl
  · cases hinsert : p.insert key seed values with
    | error e =>
        rw [hinsert] at hstore
        cases hstore
    | ok q =>
        rw [hinsert] at hstore
        cases hstore
        exact .inr rfl

omit h in
/-- A freed plant refuses every write. -/
theorem set_of_isDefunct (hd : p.isDefunct = true) (key : String) (seed : Seed)
    (values : List Value) :
    (p.set key seed values).answer = .error .noSuchLeaf ∧ (p.set key seed values).plant = p := by
  rw [set, store, if_pos hd]
  exact ⟨rfl, rfl⟩

omit h in
/-- A write under a key without a leaf makes the leaf. -/
theorem set_of_encodeAll_ok {key : String} (hd : p.isDefunct = false)
    (hfind : p.find? key = none) {seed : Seed} {values : List Value} {elements : List Element}
    (he : Element.encodeAll seed values = .ok elements) :
    (p.set key seed values).answer = .ok () ∧
      (p.set key seed values).plant = p.link (.create key seed elements) := by
  rw [set, store, hd, if_neg Bool.false_ne_true, has_eq_false_iff.mpr hfind,
    if_neg Bool.false_ne_true, insert, he]
  exact ⟨rfl, rfl⟩

omit h in
/-- No leaf is made for values that cannot be stored. -/
theorem set_of_encodeAll_error {key : String} (hd : p.isDefunct = false)
    (hfind : p.find? key = none) {seed : Seed} {values : List Value} {e : StoreError}
    (he : Element.encodeAll seed values = .error e) :
    (p.set key seed values).answer = .error e ∧ (p.set key seed values).plant = p := by
  rw [set, store, hd, if_neg Bool.false_ne_true, has_eq_false_iff.mpr hfind,
    if_neg Bool.false_ne_true, insert, he]
  exact ⟨rfl, rfl⟩

/-- A write is refused, or it alters the elements of the leaf of its key, or it links a new
leaf. -/
theorem Searchable.set_cases (key : String) (seed : Seed) (values : List Value) :
    (∃ e, (p.set key seed values).answer = .error e ∧ (p.set key seed values).plant = p) ∨
    (∃ leaf elements, p.find? key = some leaf ∧
      renewal (p.place? key == some .root) leaf seed values = .ok elements ∧
      (p.set key seed values).answer = .ok () ∧
      (p.set key seed values).plant =
        p.alter (leafName key) fun leaf => { leaf with elements := elements }) ∨
    (∃ elements, p.find? key = none ∧ p.isDefunct = false ∧
      Element.encodeAll seed values = .ok elements ∧
      (p.set key seed values).answer = .ok () ∧
      (p.set key seed values).plant = p.link (.create key seed elements)) := by
  cases hfind : p.find? key with
  | some leaf =>
      obtain ⟨ha, hp⟩ := set_of_find?_some (h.isDefunct_of_find? hfind) hfind seed values
      rw [ha, hp]
      rcases h.updateNow_cases key seed values with hrefused | ⟨l, elements, hl, hrest⟩
      · exact .inl hrefused
      · exact .inr (.inl ⟨l, elements, hfind ▸ hl, hrest⟩)
  | none =>
      cases hd : p.isDefunct with
      | true => exact .inl ⟨.noSuchLeaf, set_of_isDefunct hd key seed values⟩
      | false =>
          cases he : Element.encodeAll seed values with
          | error e => exact .inl ⟨e, set_of_encodeAll_error hd hfind he⟩
          | ok elements =>
              exact .inr (.inr ⟨elements, rfl, rfl, rfl, set_of_encodeAll_ok hd hfind he⟩)

theorem Searchable.modify_leafName (key : String) (f : Leaf → Leaf) :
    p.modify (leafName key) f = p.modify key f := by
  rw [modify, modify, h.place?_leafName]

/-- A key and the name that it stands for are written alike. -/
theorem Searchable.update_leafName (key : String) (seed : Seed) (values : List Value) :
    p.update (leafName key) seed values = p.update key seed values := by
  simp only [update, publish, h.find?_leafName, h.place?_leafName, h.modify_leafName]

theorem Searchable.updateNow_leafName (key : String) (seed : Seed) (values : List Value) :
    p.updateNow (leafName key) seed values = p.updateNow key seed values := by
  rw [updateNow, updateNow, h.update_leafName]

/-! ### Flags and the host's word -/

omit h in
/-- A change of a leaf reports nothing. -/
theorem events_change (key : String) (f : Leaf → Leaf) : (p.change key f).events = [] := by
  rw [change]
  split <;> rfl

theorem Searchable.change_leafName (key : String) (f : Leaf → Leaf) :
    p.change (leafName key) f = p.change key f := by
  rw [change, change, h.has_leafName, h.modify_leafName]

theorem Searchable.setFlags_leafName (key : String) (flags : LeafFlags) :
    p.setFlags (leafName key) flags = p.setFlags key flags :=
  h.change_leafName key _

/-- A change of a leaf is refused for want of the leaf, or it alters it. -/
theorem Searchable.change_cases (key : String) (f : Leaf → Leaf) :
    (p.find? key = none ∧ (p.change key f).answer = .error .noSuchLeaf ∧
      (p.change key f).plant = p) ∨
    (∃ leaf, p.find? key = some leaf ∧ (p.change key f).answer = .ok () ∧
      (p.change key f).plant = p.alter (leafName key) f) := by
  rw [change]
  cases hfind : p.find? key with
  | none =>
      rw [has_eq_false_iff.mpr hfind]
      exact .inl ⟨rfl, rfl, rfl⟩
  | some leaf =>
      rw [has_eq_true_iff.mpr ⟨leaf, hfind⟩]
      exact .inr ⟨leaf, rfl, rfl, h.modify_eq_alter (h.isDefunct_of_find? hfind) key f⟩

/-! ### Removing -/

/-- A removal is refused, or it takes the leaf of its key out of the chain. -/
theorem Searchable.delete_cases (key : String) :
    (∃ e, (p.delete key).answer = .error e ∧ (p.delete key).plant = p) ∨
    (∃ leaf, p.find? key = some leaf ∧ leafName key ≠ rootKey ∧ leaf.isUndeletable = false ∧
      (p.delete key).answer = .ok () ∧ (p.delete key).plant = p.without (leafName key)) := by
  rw [delete]
  cases hplace : p.place? key with
  | none => exact .inl ⟨.noSuchLeaf, rfl, rfl⟩
  | some place =>
      cases place with
      | root => exact .inl ⟨.noSuchLeaf, rfl, rfl⟩
      | link index =>
          simp only [reportDeleted_answer, reportDeleted_plant]
          rcases p.removeAt_cases index with ⟨e, ha, hp⟩ | ⟨leaf, hleaf, hu, ha, hp⟩
          · exact .inl ⟨e, ha, hp⟩
          · right
            -- The leaf at the place is the one that the search has found.
            obtain ⟨hd, other, hother, hname⟩ := h.place?_eq_link_iff.mp hplace
            obtain rfl : leaf = other := Option.some.inj (hleaf.symm.trans hother)
            have hmem : leaf ∈ p.chain := List.mem_of_getElem? hleaf
            refine ⟨leaf, ?_, hname ▸ h.chain_name leaf hmem, hu, ha, ?_⟩
            · exact h.find?_eq_some_iff.mpr ⟨hd, List.mem_cons_of_mem _ hmem, hname⟩
            · rw [hp, h.eraseIdx_chain hleaf, hname]
              rfl

/-- A removal that looks its key up again removes the same leaf as one that finds it at once. -/
theorem Searchable.deleteAfterWait_eq_delete {key : String} (hd : p.isDefunct = false)
    (hkey : leafName key ≠ rootKey) : p.deleteAfterWait key = p.delete key := by
  -- The key is not empty, so it is searched for as it is.
  have hfilled : leafName key = key := by
    rw [leafName] at hkey ⊢
    split at hkey
    · exact absurd rfl hkey
    · exact if_neg ‹_›
  have hplace : p.place? key = (p.chainIndex? key).map .link := by
    rw [h.place?_eq, hd, if_neg Bool.false_ne_true, if_neg hkey, chainIndex?,
      h.findIdx?_answersTo, hfilled]
  rw [deleteAfterWait, delete, hplace]
  cases p.chainIndex? key with
  | none => rfl
  | some index => rfl

/-! ### What stays -/

/-- An update of a leaf moves no leaf. -/
theorem Searchable.place?_updateNow (key : String) (seed : Seed) (values : List Value)
    (other : String) :
    (p.updateNow key seed values).plant.place? other = p.place? other := by
  rcases h.updateNow_cases key seed values with ⟨e, -, hp⟩ | ⟨leaf, elements, -, -, -, hp⟩
  · rw [hp]
  · rw [hp, h.place?_alter _ (Leaf.isContent_elements elements)]

theorem Searchable.isDefunct_updateNow (key : String) (seed : Seed) (values : List Value) :
    (p.updateNow key seed values).plant.isDefunct = p.isDefunct := by
  rcases h.updateNow_cases key seed values with ⟨e, -, hp⟩ | ⟨leaf, elements, -, -, -, hp⟩
  · rw [hp]
  · rw [hp, isDefunct_alter p _ (Leaf.isContent_elements elements)]

theorem Searchable.isDefunct_set (key : String) (seed : Seed) (values : List Value) :
    (p.set key seed values).plant.isDefunct = p.isDefunct := by
  rcases h.set_cases key seed values with ⟨e, -, hp⟩ | ⟨leaf, elements, -, -, -, hp⟩ |
      ⟨elements, -, -, -, -, hp⟩
  · rw [hp]
  · rw [hp, isDefunct_alter p _ (Leaf.isContent_elements elements)]
  · rw [hp]
    rfl

/-- A change of content moves no leaf, wherever it is made. -/
theorem Searchable.place?_change (key : String) {f : Leaf → Leaf} (hf : Leaf.IsContent f)
    (other : String) : (p.change key f).plant.place? other = p.place? other := by
  rcases h.change_cases key f with ⟨-, -, hp⟩ | ⟨leaf, -, -, hp⟩
  · rw [hp]
  · rw [hp, h.place?_alter _ hf]

theorem Searchable.isDefunct_change (key : String) {f : Leaf → Leaf} (hf : Leaf.IsContent f) :
    (p.change key f).plant.isDefunct = p.isDefunct := by
  rcases h.change_cases key f with ⟨-, -, hp⟩ | ⟨leaf, -, -, hp⟩
  · rw [hp]
  · rw [hp, isDefunct_alter p _ hf]

theorem Searchable.isDefunct_delete (key : String) :
    (p.delete key).plant.isDefunct = p.isDefunct := by
  rcases h.delete_cases key with ⟨e, -, hp⟩ | ⟨leaf, -, -, -, -, hp⟩
  · rw [hp]
  · rw [hp]
    rfl

end

end Plant
end PlantStore
