import Mathlib.Logic.Relation
import PlantStore.Proofs.WellFormed

/-! # Effects

What a call can do to a plant, leaf by leaf. A leaf gets new elements only if it is not immutable,
and goes only if it is not undeletable; its flags change only as some call asks for, and its key
and seed never. Every call is a sequence of such effects, whichever of its checks it makes before
it waits and whichever afterwards, so what all effects keep is kept by all runs. -/

namespace PlantStore

/-- What becomes of a leaf that stays, if calls ask for no other flags of it than those that are
allowed. -/
inductive Leaf.Becomes (allowed : LeafFlags → Prop) (leaf : Leaf) : Leaf → Prop
  | same : Becomes allowed leaf leaf
  | elements (elements : List Element) (h : leaf.isImmutable = false) :
    Becomes allowed leaf { leaf with elements := elements }
  | flags (flags : LeafFlags) (h : allowed flags) :
    Becomes allowed leaf { leaf with flags := leaf.flags.replaceVisible flags }
  | hostWord (word : UInt64) : Becomes allowed leaf { leaf with hostWord := word }

/-- One effect on a plant, if calls ask for no other flags than those allowed for each name. -/
inductive Plant.Effect (allowed : String → LeafFlags → Prop) (p : Plant) : Plant → Prop
  | alters (name : String) {f : Leaf → Leaf} (hf : Leaf.IsContent f)
    (h : ∀ leaf ∈ p.leaves, leaf.name = name → leaf.Becomes (allowed name) (f leaf)) :
    Effect allowed p (p.alter name f)
  | links (leaf : Leaf) : Effect allowed p (p.link leaf)
  | removes {index : Nat} {leaf : Leaf} (hleaf : p.chain[index]? = some leaf)
    (hu : leaf.isUndeletable = false) :
    Effect allowed p { p with chain := p.chain.eraseIdx index }
  | sweeps (start : Nat) : Effect allowed p (p.sweep start)
  | buries (hchain : p.chain = []) (hu : p.root.isUndeletable = false) : Effect allowed p p.bury

/-- All flags that the call asks for are allowed. -/
def Call.Obeys (allowed : String → LeafFlags → Prop) (call : Call) : Prop :=
  ∀ key flags, call = .setFlags key flags → allowed (leafName key) flags

namespace Plant

/-- The plant has not been freed, and its leaf of a name is there and has a property. -/
def Bears (p : Plant) (name : String) (property : Leaf → Prop) : Prop :=
  p.isDefunct = false ∧ ∃ leaf ∈ p.leaves, leaf.name = name ∧ property leaf

/-- A sequence of effects. -/
abbrev Effects (allowed : String → LeafFlags → Prop) : Plant → Plant → Prop :=
  Relation.ReflTransGen (Effect allowed)

/-! ### What an effect keeps -/

section

variable {allowed : String → LeafFlags → Prop} {p q : Plant}

/-- A leaf that a change of content has been made of. -/
theorem Effect.becomes_alter {name : String} {f : Leaf → Leaf}
    (h : ∀ leaf ∈ p.leaves, leaf.name = name → leaf.Becomes (allowed name) (f leaf))
    {leaf : Leaf} (hleaf : leaf ∈ p.leaves) :
    leaf.Becomes (allowed leaf.name) (leaf.alter name f) := by
  by_cases hname : leaf.name = name
  · rw [Leaf.alter_of_name hname, hname]
    exact h leaf hleaf hname
  · rw [Leaf.alter_of_ne hname]
    exact .same

/-- An undeletable leaf stays, and the plant is not freed. -/
theorem Effect.undeletable (h : Effect allowed p q) {leaf : Leaf} (hleaf : leaf ∈ p.leaves)
    (hu : leaf.isUndeletable = true) :
    q.isDefunct = p.isDefunct ∧
      ∃ next ∈ q.leaves, next.name = leaf.name ∧ leaf.Becomes (allowed leaf.name) next := by
  cases h with
  | alters name hf h =>
      refine ⟨isDefunct_alter p name hf, leaf.alter name _, ?_, (hf.alter name).name leaf,
        Effect.becomes_alter h hleaf⟩
      rw [leaves_alter]
      exact List.mem_map_of_mem hleaf
  | links new =>
      refine ⟨rfl, leaf, ?_, rfl, .same⟩
      rcases List.mem_cons.mp hleaf with rfl | hchain
      · exact List.mem_cons_self
      · exact List.mem_cons_of_mem _ (List.mem_cons_of_mem _ hchain)
  | @removes index gone hgone hnot =>
      refine ⟨rfl, leaf, ?_, rfl, .same⟩
      rcases List.mem_cons.mp hleaf with rfl | hchain
      · exact List.mem_cons_self
      · refine List.mem_cons_of_mem _ (List.mem_eraseIdx_iff_getElem?.mpr ?_)
        obtain ⟨i, hi⟩ := List.getElem?_of_mem hchain
        refine ⟨i, ?_, hi⟩
        -- The leaf that goes is not this one, since it may go.
        rintro rfl
        rw [hi] at hgone
        rw [Option.some.inj hgone, hnot] at hu
        cases hu
  | sweeps start =>
      refine ⟨rfl, leaf, ?_, rfl, .same⟩
      rcases List.mem_cons.mp hleaf with rfl | hchain
      · exact List.mem_cons_self
      · exact List.mem_cons_of_mem _ (mem_sweep hchain hu start)
  | buries hchain hnot =>
      rw [leaves, hchain, List.mem_singleton] at hleaf
      rw [hleaf, hnot] at hu
      cases hu

/-- The root stays as long as the plant is not freed. -/
theorem Effect.root (h : Effect allowed p q) :
    q.isDefunct = true ∨
      q.isDefunct = p.isDefunct ∧ q.root.name = p.root.name ∧
        p.root.Becomes (allowed p.root.name) q.root := by
  cases h with
  | alters name hf h =>
      exact .inr ⟨isDefunct_alter p name hf, (hf.alter name).name p.root,
        Effect.becomes_alter h List.mem_cons_self⟩
  | buries hchain hnot => exact .inl (isDefunct_bury p)
  | _ => exact .inr ⟨rfl, rfl, .same⟩

/-! ### What effects keep -/

/-- A property of a leaf that keeps it undeletable and that no effect on it takes away is kept,
and with it the leaf. -/
theorem Effects.bears (h : Effects allowed p q) {name : String} {good : Leaf → Prop}
    (hgood : ∀ leaf, good leaf → leaf.isUndeletable = true)
    (hkeep : ∀ leaf next, good leaf → leaf.Becomes (allowed name) next → good next)
    (hp : p.Bears name good) : q.Bears name good := by
  induction h with
  | refl => exact hp
  | tail _ hstep ih =>
      obtain ⟨hd, leaf, hleaf, hname, hleafGood⟩ := ih
      obtain ⟨hstill, next, hnext, hnextName, hbecomes⟩ :=
        hstep.undeletable hleaf (hgood leaf hleafGood)
      rw [hname] at hbecomes
      exact ⟨hstill.trans hd, next, hnext, hnextName.trans hname,
        hkeep leaf next hleafGood hbecomes⟩

/-- A property of the root that no effect on it takes away is kept as long as the plant is not
freed. -/
theorem Effects.root (h : Effects allowed p q) {good : Leaf → Prop}
    (hkeep : ∀ leaf next, good leaf → leaf.Becomes (allowed rootKey) next → good next)
    (hname : p.root.name = rootKey) (hgood : good p.root) :
    q.isDefunct = true ∨ q.isDefunct = p.isDefunct ∧ q.root.name = rootKey ∧ good q.root := by
  induction h with
  | refl => exact .inr ⟨rfl, hname, hgood⟩
  | tail _ hstep ih =>
      rcases hstep.root with hfreed | ⟨hdefunct, hsame, hbecomes⟩
      · exact .inl hfreed
      · rcases ih with hfreed | ⟨hstill, hmid, hmidGood⟩
        · exact .inl (hdefunct.trans hfreed)
        · rw [hmid] at hbecomes
          exact .inr ⟨hdefunct.trans hstill, hsame.trans hmid, hkeep _ _ hmidGood hbecomes⟩

end

/-- A search finds the leaf that a plant bears. -/
theorem WellFormed.find?_of_bears [KeyHash] {p : Plant} (h : p.WellFormed) {key : String}
    {property : Leaf → Prop} (hbears : p.Bears (leafName key) property) :
    ∃ leaf, p.find? key = some leaf ∧ property leaf := by
  obtain ⟨hd, leaf, hleaf, hname, hproperty⟩ := hbears
  exact ⟨leaf, h.find?_eq_some_iff.mpr ⟨hd, hleaf, hname⟩, hproperty⟩

theorem WellFormed.bears_of_find? [KeyHash] {p : Plant} (h : p.WellFormed) {key : String}
    {leaf : Leaf} (hfind : p.find? key = some leaf) {property : Leaf → Prop}
    (hproperty : property leaf) : p.Bears (leafName key) property := by
  obtain ⟨hd, hleaf, hname⟩ := h.find?_eq_some_iff.mp hfind
  exact ⟨hd, leaf, hleaf, hname, hproperty⟩

/-! ### The effects of calls -/

section

variable [KeyHash] (allowed : String → LeafFlags → Prop) {p : Plant} (h : p.WellFormed)

omit [KeyHash] in
theorem effects_removeAt (p : Plant) (index : Nat) :
    Effects allowed p (p.removeAt index).plant := by
  rcases p.removeAt_cases index with ⟨e, -, hp⟩ | ⟨leaf, hleaf, hu, -, hp⟩
  · rw [hp]
  · rw [hp]
    exact .single (.removes hleaf hu)

theorem effects_deleteAfterWait (p : Plant) (key : String) :
    Effects allowed p (p.deleteAfterWait key).plant := by
  rw [deleteAfterWait]
  split
  · rw [reportDeleted_plant]
    exact effects_removeAt allowed p _
  · exact .refl

theorem effects_delete (p : Plant) (key : String) :
    Effects allowed p (p.delete key).plant := by
  rw [delete]
  split
  · rw [reportDeleted_plant]
    exact effects_removeAt allowed p _
  · exact .refl
  · exact .refl

theorem effects_freeFrom (p : Plant) (start : Nat) :
    Effects allowed p (p.freeFrom start).plant := by
  have hsweep : Effects allowed p (p.sweep start) := .single (.sweeps start)
  rcases p.freeFrom_cases start with ⟨-, -, hp⟩ | ⟨-, -, -, hp⟩ | ⟨hchain, hu, -, hp⟩
  · rw [hp]
    exact hsweep
  · rw [hp]
    exact hsweep
  · rw [hp]
    exact hsweep.tail (.buries hchain hu)

theorem effects_freeAfterWait (p : Plant) : Effects allowed p p.freeAfterWait.plant := by
  rcases p.freeAfterWait_cases with ⟨-, -, hp⟩ | ⟨-, hf⟩
  · rw [hp]
  · rw [hf]
    exact effects_freeFrom allowed p 0

theorem effects_free (p : Plant) : Effects allowed p p.free.plant := by
  rw [free]
  split
  · exact .refl
  · exact effects_freeAfterWait allowed p

include h

/-- Putting the elements of a permitted write in place. -/
theorem WellFormed.effect_elements {key : String} {leaf : Leaf} (hfind : p.find? key = some leaf)
    {atRoot : Bool} {seed : Seed} {values : List Value} {elements : List Element}
    (hr : renewal atRoot leaf seed values = .ok elements) :
    Effect allowed p (p.alter (leafName key) fun leaf => { leaf with elements := elements }) := by
  obtain ⟨-, hmem, hname⟩ := h.find?_eq_some_iff.mp hfind
  refine .alters _ (Leaf.isContent_elements elements) ?_
  intro other hother hsame
  obtain rfl : other = leaf := h.eq_of_name hother hmem (hsame.trans hname.symm)
  exact .elements elements (renewal_eq_ok hr).2.1

theorem WellFormed.effects_updateNow (key : String) (seed : Seed) (values : List Value) :
    Effects allowed p (p.updateNow key seed values).plant := by
  rcases h.updateNow_cases key seed values with ⟨e, -, hp⟩ | ⟨leaf, elements, hfind, hr, -, hp⟩
  · rw [hp]
  · rw [hp]
    exact .single (h.effect_elements allowed hfind hr)

theorem WellFormed.effects_set (key : String) (seed : Seed) (values : List Value) :
    Effects allowed p (p.set key seed values).plant := by
  rcases h.set_cases key seed values with ⟨e, -, hp⟩ | ⟨leaf, elements, hfind, hr, -, hp⟩ |
      ⟨elements, -, -, -, -, hp⟩
  · rw [hp]
  · rw [hp]
    exact .single (h.effect_elements allowed hfind hr)
  · rw [hp]
    exact .single (.links _)

theorem WellFormed.effects_setFlags (key : String) {flags : LeafFlags}
    (hflags : allowed (leafName key) flags) : Effects allowed p (p.setFlags key flags).plant := by
  rw [Plant.setFlags]
  rcases h.change_cases key (fun leaf => { leaf with flags := leaf.flags.replaceVisible flags })
    with ⟨-, -, hp⟩ | ⟨leaf, -, -, hp⟩
  · rw [hp]
  · rw [hp]
    exact .single (.alters _ (Leaf.isContent_flags flags) fun other _ _ => .flags flags hflags)

theorem WellFormed.effects_setHostWord (key : String) (word : UInt64) :
    Effects allowed p (p.setHostWord key word).plant := by
  rw [Plant.setHostWord]
  rcases h.change_cases key (fun leaf => { leaf with hostWord := word }) with
    ⟨-, -, hp⟩ | ⟨leaf, -, -, hp⟩
  · rw [hp]
  · rw [hp]
    exact .single (.alters _ (Leaf.isContent_hostWord word) fun other _ _ => .hostWord word)

/-- Every call is a sequence of effects. -/
theorem WellFormed.effects_perform {call : Call} (hcall : call.Obeys allowed) :
    Effects allowed p (p.perform call).plant := by
  cases call with
  | set key seed values => exact h.effects_set allowed key seed values
  | setFlags key flags => exact h.effects_setFlags allowed key (hcall key flags rfl)
  | setHostWord key word => exact h.effects_setHostWord allowed key word
  | delete key => exact effects_delete allowed p key
  | free => exact effects_free allowed p
  | _ => exact .refl

end

end Plant

end PlantStore
