import PlantStore.Call
import PlantStore.Proofs.Steps

/-! # Well-formed plants

The invariant of the store. A new plant has it and every call keeps it, a refused call as well
as one that takes effect. That a freed plant stays as it is rests on the search: it finds
nothing there, so no call reaches the root. -/

namespace PlantStore
namespace Plant

variable [KeyHash]

/-- The representation that all calls rely on and keep. -/
structure WellFormed (p : Plant) : Prop extends p.Searchable where
  leaf_wellFormed : ∀ leaf ∈ p.leaves, leaf.WellFormed
  root_seed : p.root.seed = .int
  root_unmarked : p.root.flags.contains .removing = false
  chain_unmarked : ∀ leaf ∈ p.chain,
    leaf.flags.contains .removing = false ∧ leaf.flags.contains .defunct = false
  /-- The root of a plant that has not been freed holds one value. -/
  live_root : p.isDefunct = false → p.root.elements.length = 1
  /-- A freed plant has nothing but an empty root that may go. -/
  freed : p.isDefunct = true →
    p.chain = [] ∧ p.root.elements = [] ∧ p.root.hostWord = 0 ∧ p.root.isUndeletable = false

theorem Searchable.make (type : Int32) (debug : Bool) : (Plant.make type debug).Searchable := by
  refine ⟨?_, StoredKey.toString_ofString rootKey, ?_, ?_, List.nodup_nil⟩
  · intro leaf hleaf
    obtain rfl : leaf = (Plant.make type debug).root := List.mem_singleton.mp hleaf
    show KeyHash.hash rootKey = KeyHash.hash (StoredKey.ofString rootKey).toString
    rw [StoredKey.toString_ofString]
  · intro leaf hleaf
    cases hleaf
  · intro leaf hleaf
    cases hleaf

theorem isDefunct_make (type : Int32) (debug : Bool) :
    (Plant.make type debug).isDefunct = false :=
  (by decide : LeafFlags.immutable.contains .defunct = false)

/-- A new plant is well-formed. -/
theorem WellFormed.make (type : Int32) (debug : Bool) : (Plant.make type debug).WellFormed := by
  have hunmarked : LeafFlags.immutable.contains .removing = false := by decide
  refine ⟨Searchable.make type debug, ?_, rfl, hunmarked, ?_, fun _ => rfl, ?_⟩
  · intro leaf hleaf
    obtain rfl : leaf = (Plant.make type debug).root := List.mem_singleton.mp hleaf
    have hencode : Element.encodeAll .int [.int type] = .ok [.ofValue (.int type)] := rfl
    have hcreate := Leaf.wellFormed_create hencode rootKey
    exact ⟨hcreate.key_eq, hcreate.hash_eq, hcreate.seed_valid, hcreate.holds⟩
  · intro leaf hleaf
    cases hleaf
  · intro hd
    rw [isDefunct_make] at hd
    cases hd

section

variable {p : Plant} (h : p.WellFormed)

include h

/-! ### The forms of a change -/

/-- A change of content keeps a live plant well-formed if the changed leaf holds values, and
one of them if it is the root. -/
theorem WellFormed.alter (hd : p.isDefunct = false) {name : String} {f : Leaf → Leaf}
    (hf : Leaf.IsContent f)
    (hholds : ∀ leaf ∈ p.leaves, leaf.name = name → ∃ values, (f leaf).Holds values)
    (hroot : name = rootKey → (f p.root).elements.length = 1) : (p.alter name f).WellFormed := by
  have hfn := hf.alter name
  refine ⟨h.toSearchable.alter name hf, ?_, ?_, ?_, ?_, ?_, ?_⟩
  · rw [leaves_alter]
    intro leaf hleaf
    obtain ⟨old, hold, rfl⟩ := List.mem_map.mp hleaf
    -- The altered leaf holds values by assumption, and all others are as they were.
    apply (h.leaf_wellFormed old hold).change hfn
    by_cases hname : old.name = name
    · rw [Leaf.alter_of_name hname]
      exact hholds old hold hname
    · rw [Leaf.alter_of_ne hname]
      exact (h.leaf_wellFormed old hold).holds
  · exact (hfn.seed p.root).trans h.root_seed
  · exact (hfn.removing p.root).trans h.root_unmarked
  · intro leaf hleaf
    obtain ⟨old, hold, rfl⟩ := List.mem_map.mp hleaf
    rw [hfn.removing, hfn.defunct]
    exact h.chain_unmarked old hold
  · intro _
    show (p.root.alter name f).elements.length = 1
    by_cases hname : p.root.name = name
    · rw [Leaf.alter_of_name hname]
      exact hroot (hname ▸ h.root_name)
    · rw [Leaf.alter_of_ne hname]
      exact h.live_root hd
  · intro hdef
    rw [isDefunct_alter p name hf, hd] at hdef
    cases hdef

/-- A change of content that leaves the elements alone keeps a live plant well-formed. -/
theorem WellFormed.alter_of_elements (hd : p.isDefunct = false) {name : String}
    {f : Leaf → Leaf} (hf : Leaf.IsContent f)
    (helements : ∀ leaf, (f leaf).elements = leaf.elements) : (p.alter name f).WellFormed := by
  apply h.alter hd hf
  · intro leaf hleaf _
    obtain ⟨values, hvalues⟩ := (h.leaf_wellFormed leaf hleaf).holds
    refine ⟨values, ?_, ?_⟩
    · rw [hf.seed]
      exact hvalues.1
    · rw [helements]
      exact hvalues.2
  · intro _
    rw [helements]
    exact h.live_root hd

/-- Putting the elements of a permitted write in place keeps a plant well-formed. -/
theorem WellFormed.alter_elements {key : String} {leaf : Leaf} (hfind : p.find? key = some leaf)
    {atRoot : Bool} (hat : leafName key = rootKey → atRoot = true) {seed : Seed}
    {values : List Value} {elements : List Element}
    (hr : renewal atRoot leaf seed values = .ok elements) :
    (p.alter (leafName key) fun leaf => { leaf with elements := elements }).WellFormed := by
  obtain ⟨hseed, -, hone, hencode⟩ := renewal_eq_ok hr
  obtain ⟨hd, hmem, hname⟩ := h.find?_eq_some_iff.mp hfind
  obtain ⟨-, hfit, rfl⟩ := Element.encodeAll_eq_ok_iff.mp hencode
  apply h.alter hd (Leaf.isContent_elements _)
  · intro other hother hsame
    obtain rfl : other = leaf := h.eq_of_name hother hmem (hsame.trans hname.symm)
    exact ⟨values, hseed ▸ hfit, rfl⟩
  · intro hroot
    show (values.map Element.ofValue).length = 1
    rw [List.length_map]
    exact hone (hat hroot)

theorem WellFormed.link (hd : p.isDefunct = false) {key : String} {seed : Seed}
    {values : List Value} {elements : List Element} (hfind : p.find? key = none)
    (hencode : Element.encodeAll seed values = .ok elements) :
    (p.link (.create key seed elements)).WellFormed := by
  have hleaf := Leaf.wellFormed_create hencode key
  have hnone := h.ne_of_find?_none hd hfind
  -- The key is not the empty one, which would have found the root.
  have hne : leafName key ≠ rootKey := fun heq =>
    hnone p.root List.mem_cons_self (h.root_name.trans heq.symm)
  have hfilled : key.isEmpty = false := by
    cases he : key.isEmpty with
    | false => rfl
    | true => exact absurd (if_pos he) hne
  have hnew : ∀ old ∈ p.leaves, old.name ≠ (Leaf.create key seed elements).name := by
    rw [Leaf.name_create, ← leafName_of_ne hfilled]
    exact hnone
  have hs := h.toSearchable.link hleaf.hash_eq ((Leaf.name_create ..).symm ▸ hfilled) hnew
  refine ⟨hs, ?_, h.root_seed, h.root_unmarked, ?_, fun _ => h.live_root hd, ?_⟩
  · intro leaf hmem
    rcases List.mem_cons.mp hmem with rfl | hmem
    · exact h.leaf_wellFormed _ List.mem_cons_self
    rcases List.mem_cons.mp hmem with rfl | hmem
    · exact hleaf
    · exact h.leaf_wellFormed leaf (List.mem_cons_of_mem _ hmem)
  · intro leaf hmem
    rcases List.mem_cons.mp hmem with rfl | hmem
    · have hempty : LeafFlags.empty.contains .removing = false ∧
          LeafFlags.empty.contains .defunct = false := by decide
      exact hempty
    · exact h.chain_unmarked leaf hmem
  · intro hdef
    have hsame : (p.link (.create key seed elements)).isDefunct = p.isDefunct := rfl
    rw [hsame, hd] at hdef
    cases hdef

/-- Leaves may go. -/
theorem WellFormed.ofSublist {chain : List Leaf} (hsub : chain.Sublist p.chain) :
    ({ p with chain := chain } : Plant).WellFormed := by
  refine ⟨h.toSearchable.ofSublist hsub rfl rfl, ?_, h.root_seed, h.root_unmarked, ?_,
    h.live_root, ?_⟩
  · intro leaf hmem
    rcases List.mem_cons.mp hmem with rfl | hmem
    · exact h.leaf_wellFormed _ List.mem_cons_self
    · exact h.leaf_wellFormed leaf (List.mem_cons_of_mem _ (hsub.subset hmem))
  · exact fun leaf hmem => h.chain_unmarked leaf (hsub.subset hmem)
  · intro hd
    obtain ⟨hchain, hrest⟩ := h.freed hd
    exact ⟨List.sublist_nil.mp (hchain ▸ hsub), hrest⟩

/-- A plant without a chain may be freed if its root may go. -/
theorem WellFormed.bury (hchain : p.chain = []) (hu : p.root.isUndeletable = false) :
    p.bury.WellFormed := by
  have hroot := h.leaf_wellFormed p.root List.mem_cons_self
  refine ⟨h.toSearchable.ofSublist (List.Sublist.refl _) rfl rfl, ?_, h.root_seed, ?_, ?_, ?_, ?_⟩
  · intro leaf hmem
    rcases List.mem_cons.mp hmem with rfl | hmem
    · exact ⟨hroot.key_eq, hroot.hash_eq, hroot.seed_valid, [], fun v hv => (by cases hv), rfl⟩
    · exact h.leaf_wellFormed leaf (List.mem_cons_of_mem _ hmem)
  · have hmark := h.root_unmarked
    show (p.root.flags.insert .defunct).contains .removing = false
    simp only [LeafFlags.contains_removing] at hmark
    simp [hmark]
  · exact h.chain_unmarked
  · -- A freed plant is not live.
    intro hd
    rw [isDefunct_bury] at hd
    cases hd
  · intro _
    refine ⟨hchain, rfl, rfl, ?_⟩
    show (p.root.flags.insert .defunct).contains .undeletable = false
    simp only [Leaf.isUndeletable, LeafFlags.contains_undeletable] at hu
    simp [hu]

/-! ### The operations -/

theorem WellFormed.updateNow (key : String) (seed : Seed) (values : List Value) :
    (p.updateNow key seed values).plant.WellFormed := by
  rcases h.updateNow_cases key seed values with ⟨e, -, hp⟩ | ⟨leaf, elements, hfind, hr, -, hp⟩
  · rw [hp]
    exact h
  · rw [hp]
    refine h.alter_elements hfind (fun hkey => ?_) hr
    have hplace := h.place?_eq_root_iff.mpr ⟨h.isDefunct_of_find? hfind, hkey⟩
    rw [hplace]
    rfl

theorem WellFormed.set (key : String) (seed : Seed) (values : List Value) :
    (p.set key seed values).plant.WellFormed := by
  rcases h.set_cases key seed values with ⟨e, -, hp⟩ | ⟨leaf, elements, hfind, -⟩ |
      ⟨elements, hfind, hd, hencode, -, hp⟩
  · rw [hp]
    exact h
  · rw [(set_of_find?_some (h.isDefunct_of_find? hfind) hfind seed values).2]
    exact h.updateNow key seed values
  · rw [hp]
    exact h.link hd hfind hencode

theorem WellFormed.change {f : Leaf → Leaf} (hf : Leaf.IsContent f)
    (helements : ∀ leaf, (f leaf).elements = leaf.elements) (key : String) :
    (p.change key f).plant.WellFormed := by
  rcases h.change_cases key f with ⟨-, -, hp⟩ | ⟨leaf, hfind, -, hp⟩
  · rw [hp]
    exact h
  · rw [hp]
    exact h.alter_of_elements (h.isDefunct_of_find? hfind) hf helements

theorem WellFormed.setFlags (key : String) (flags : LeafFlags) :
    (p.setFlags key flags).plant.WellFormed :=
  h.change (Leaf.isContent_flags flags) (fun _ => rfl) key

theorem WellFormed.setHostWord (key : String) (word : UInt64) :
    (p.setHostWord key word).plant.WellFormed :=
  h.change (Leaf.isContent_hostWord word) (fun _ => rfl) key

theorem WellFormed.removeAt (index : Nat) : (p.removeAt index).plant.WellFormed := by
  rcases p.removeAt_cases index with ⟨e, -, hp⟩ | ⟨leaf, -, -, -, hp⟩
  · rw [hp]
    exact h
  · rw [hp]
    exact h.ofSublist (List.eraseIdx_sublist ..)

theorem WellFormed.delete (key : String) : (p.delete key).plant.WellFormed := by
  rcases h.delete_cases key with ⟨e, -, hp⟩ | ⟨leaf, -, -, -, -, hp⟩
  · rw [hp]
    exact h
  · rw [hp]
    exact h.ofSublist List.filter_sublist

theorem WellFormed.deleteAfterWait (key : String) :
    (p.deleteAfterWait key).plant.WellFormed := by
  rw [Plant.deleteAfterWait]
  cases p.chainIndex? key with
  | none => exact h
  | some index =>
      rw [reportDeleted_plant]
      exact h.removeAt index

theorem WellFormed.sweep (start : Nat) : (p.sweep start).WellFormed :=
  h.ofSublist (p.sweep_sublist start)

theorem WellFormed.freeFrom (start : Nat) : (p.freeFrom start).plant.WellFormed := by
  rcases p.freeFrom_cases start with ⟨-, -, hp⟩ | ⟨-, -, -, hp⟩ | ⟨hchain, hu, -, hp⟩
  · rw [hp]
    exact h.sweep start
  · rw [hp]
    exact h.sweep start
  · rw [hp]
    exact (h.sweep start).bury hchain hu

theorem WellFormed.freeAfterWait : p.freeAfterWait.plant.WellFormed := by
  rcases p.freeAfterWait_cases with ⟨-, -, hp⟩ | ⟨-, hf⟩
  · rw [hp]
    exact h
  · rw [hf]
    exact h.freeFrom 0

theorem WellFormed.free : p.free.plant.WellFormed := by
  rcases p.free_cases with ⟨-, -, hp⟩ | ⟨-, -, -, hp⟩ | ⟨-, -, hf⟩
  · rw [hp]
    exact h
  · rw [hp]
    exact h
  · rw [hf]
    exact h.freeFrom 0

/-- Every call keeps a plant well-formed. -/
theorem WellFormed.perform (call : Call) : (p.perform call).plant.WellFormed := by
  cases call with
  | set key seed values => exact h.set key seed values
  | setFlags key flags => exact h.setFlags key flags
  | setHostWord key word => exact h.setHostWord key word
  | delete key => exact h.delete key
  | free => exact h.free
  | _ => exact h

end

/-- Every run keeps a plant well-formed. -/
theorem WellFormed.run {p : Plant} (h : p.WellFormed) (calls : List Call) :
    (p.run calls).1.WellFormed := by
  induction calls generalizing p with
  | nil => exact h
  | cons call calls ih => exact ih (h.perform call)

end Plant
end PlantStore
