import PlantStore.Plant.Remove
import PlantStore.Proofs.Lookup

/-! # What changes do to a search

Each way of changing a plant is put into a form that speaks of names instead of places:
`modify` alters the leaves of a name, `removeAt` drops them, and `link`, `sweep` and `bury` are
of that form already. The search in the changed plant is then given by the search before. -/

namespace PlantStore

/-- Changes a leaf if it has a name. -/
def Leaf.alter (name : String) (f : Leaf → Leaf) (leaf : Leaf) : Leaf :=
  if leaf.name = name then f leaf else leaf

theorem Leaf.alter_of_name {name : String} {f : Leaf → Leaf} {leaf : Leaf}
    (h : leaf.name = name) : leaf.alter name f = f leaf :=
  if_pos h

theorem Leaf.alter_of_ne {name : String} {f : Leaf → Leaf} {leaf : Leaf}
    (h : leaf.name ≠ name) : leaf.alter name f = leaf :=
  if_neg h

/-- A change of content that is made of the leaves of one name is a change of content. -/
theorem Leaf.IsContent.alter {f : Leaf → Leaf} (hf : IsContent f) (name : String) :
    IsContent (Leaf.alter name f) := by
  refine ⟨?_, ?_, ?_, ?_, ?_⟩ <;>
  · intro leaf
    by_cases h : leaf.name = name
    · rw [alter_of_name h]
      simp only [hf.key, hf.hash, hf.seed, hf.defunct, hf.removing]
    · rw [alter_of_ne h]

namespace Plant

/-- Changes the leaves of a name. -/
def alter (p : Plant) (name : String) (f : Leaf → Leaf) : Plant where
  root := p.root.alter name f
  chain := p.chain.map (Leaf.alter name f)
  isDebug := p.isDebug

/-- Takes the leaves of a name out of the chain. -/
def without (p : Plant) (name : String) : Plant :=
  { p with chain := p.chain.filter fun leaf => leaf.name != name }

theorem leaves_alter (p : Plant) (name : String) (f : Leaf → Leaf) :
    (p.alter name f).leaves = p.leaves.map (Leaf.alter name f) := rfl

theorem isDefunct_alter (p : Plant) (name : String) {f : Leaf → Leaf} (hf : Leaf.IsContent f) :
    (p.alter name f).isDefunct = p.isDefunct :=
  (hf.alter name).defunct p.root

/-- A change of content keeps the names. -/
theorem map_name_alter (leaves : List Leaf) (name : String) {f : Leaf → Leaf}
    (hf : Leaf.IsContent f) :
    (leaves.map (Leaf.alter name f)).map Leaf.name = leaves.map Leaf.name := by
  rw [List.map_map]
  exact List.map_congr_left fun leaf _ => (hf.alter name).name leaf

/-- Nothing is altered under a name that no leaf of a list has. -/
theorem map_alter_of_forall_ne {leaves : List Leaf} {name : String} {f : Leaf → Leaf}
    (h : ∀ leaf ∈ leaves, leaf.name ≠ name) : leaves.map (Leaf.alter name f) = leaves := by
  conv_rhs => rw [← List.map_id leaves]
  exact List.map_congr_left fun leaf hleaf => Leaf.alter_of_ne (h leaf hleaf)

variable [KeyHash]

/-- A search is not misled by a change of content, by leaves that go, or by a new leaf of a
name that no leaf had. -/
theorem Searchable.alter {p : Plant} (h : p.Searchable) (name : String) {f : Leaf → Leaf}
    (hf : Leaf.IsContent f) : (p.alter name f).Searchable := by
  have hname := (hf.alter name).name
  have hhash := (hf.alter name).hash
  refine ⟨?_, ?_, ?_, ?_, ?_⟩
  · rw [leaves_alter]
    intro leaf hleaf
    obtain ⟨old, hold, rfl⟩ := List.mem_map.mp hleaf
    rw [hname, hhash]
    exact h.hash_eq old hold
  · exact (hname p.root).trans h.root_name
  · intro leaf hleaf
    obtain ⟨old, hold, rfl⟩ := List.mem_map.mp hleaf
    rw [hname]
    exact h.chain_name old hold
  · intro leaf hleaf
    obtain ⟨old, hold, rfl⟩ := List.mem_map.mp hleaf
    rw [hname]
    exact h.chain_filled old hold
  · show ((p.chain.map (Leaf.alter name f)).map Leaf.name).Nodup
    rw [map_name_alter p.chain name hf]
    exact h.chain_nodup

theorem Searchable.ofSublist {p q : Plant} (h : p.Searchable) (hsub : q.chain.Sublist p.chain)
    (hname : q.root.name = p.root.name) (hhash : q.root.hash = p.root.hash) : q.Searchable := by
  refine ⟨?_, hname.trans h.root_name, ?_, ?_, (hsub.map _).nodup h.chain_nodup⟩
  · intro leaf hleaf
    rcases List.mem_cons.mp hleaf with rfl | hchain
    · rw [hname, hhash]
      exact h.hash_eq p.root List.mem_cons_self
    · exact h.hash_eq leaf (List.mem_cons_of_mem _ (hsub.subset hchain))
  · exact fun leaf hleaf => h.chain_name leaf (hsub.subset hleaf)
  · exact fun leaf hleaf => h.chain_filled leaf (hsub.subset hleaf)

theorem Searchable.link {p : Plant} (h : p.Searchable) {leaf : Leaf}
    (hhash : leaf.hash = KeyHash.hash leaf.name) (hfilled : leaf.name.isEmpty = false)
    (hnew : ∀ old ∈ p.leaves, old.name ≠ leaf.name) : (p.link leaf).Searchable := by
  refine ⟨?_, h.root_name, ?_, ?_, ?_⟩
  · intro l hl
    rcases List.mem_cons.mp hl with rfl | hl
    · exact h.hash_eq _ List.mem_cons_self
    rcases List.mem_cons.mp hl with rfl | hl
    · exact hhash
    · exact h.hash_eq l (List.mem_cons_of_mem _ hl)
  · intro l hl
    rcases List.mem_cons.mp hl with rfl | hl
    · intro hroot
      exact hnew p.root List.mem_cons_self (h.root_name.trans hroot.symm)
    · exact h.chain_name l hl
  · intro l hl
    rcases List.mem_cons.mp hl with rfl | hl
    · exact hfilled
    · exact h.chain_filled l hl
  · show ((leaf :: p.chain).map Leaf.name).Nodup
    rw [List.map_cons, List.nodup_cons]
    refine ⟨?_, h.chain_nodup⟩
    intro hmem
    obtain ⟨old, hold, hname⟩ := List.mem_map.mp hmem
    exact hnew old (List.mem_cons_of_mem _ hold) hname

/-- A leaf that has been linked has a name of its own. -/
theorem Searchable.name_ne_of_link {p : Plant} {leaf : Leaf} (h : (p.link leaf).Searchable) :
    ∀ old ∈ p.leaves, old.name ≠ leaf.name := by
  intro old hold
  rcases List.mem_cons.mp hold with rfl | hchain
  · intro hname
    exact h.chain_name leaf List.mem_cons_self (hname.symm.trans h.root_name)
  · have hnodup : ((leaf :: p.chain).map Leaf.name).Nodup := h.chain_nodup
    rw [List.map_cons, List.nodup_cons] at hnodup
    intro hname
    exact hnodup.1 (hname ▸ List.mem_map_of_mem hchain)

/-- A leaf is only made for a key that is its name. -/
theorem Searchable.leafName_of_link {p : Plant} {key : String} {seed : Seed}
    {elements : List Element} (h : (p.link (.create key seed elements)).Searchable) :
    leafName key = key := by
  have hfilled := h.name_filled (List.mem_cons_of_mem _ List.mem_cons_self)
  rw [Leaf.name_create] at hfilled
  exact hfilled

/-! ### Altering -/

/-- Changing the leaf at an index is changing the leaves of its name. -/
theorem Searchable.modify_chain {p : Plant} (h : p.Searchable) {index : Nat} {leaf : Leaf}
    (hleaf : p.chain[index]? = some leaf) (f : Leaf → Leaf) :
    p.chain.modify index f = p.chain.map (Leaf.alter leaf.name f) := by
  obtain ⟨hlt, rfl⟩ := List.getElem?_eq_some_iff.mp hleaf
  refine List.ext_getElem (by simp) fun j hj _ => ?_
  rw [List.getElem_modify, List.getElem_map]
  have hj' : j < p.chain.length := by simpa using hj
  by_cases hij : index = j
  · subst hij
    rw [if_pos rfl, Leaf.alter_of_name rfl]
  · rw [if_neg hij, Leaf.alter_of_ne]
    intro hname
    exact hij (h.index_eq_of_name hj' hlt hname).symm

/-- Changing the leaf of a key is changing the leaves of the name that it stands for. -/
theorem Searchable.modify_eq_alter {p : Plant} (h : p.Searchable) (hd : p.isDefunct = false)
    (key : String) (f : Leaf → Leaf) : p.modify key f = p.alter (leafName key) f := by
  rw [modify]
  -- Names are unique, so the leaf at the place that the search finds is the only one of the name.
  cases hplace : p.place? key with
  | none =>
      have hfind : p.find? key = none := by rw [find?, hplace]; rfl
      have hnone := h.ne_of_find?_none hd hfind
      have hroot : p.root.alter (leafName key) f = p.root :=
        Leaf.alter_of_ne (hnone _ List.mem_cons_self)
      have hchain : p.chain.map (Leaf.alter (leafName key) f) = p.chain :=
        map_alter_of_forall_ne fun leaf hleaf => hnone leaf (List.mem_cons_of_mem _ hleaf)
      rw [Plant.alter, hroot, hchain]
  | some place =>
      cases place with
      | root =>
          obtain ⟨-, hk⟩ := h.place?_eq_root_iff.mp hplace
          have hroot : p.root.alter (leafName key) f = f p.root :=
            Leaf.alter_of_name (h.root_name.trans hk.symm)
          have hchain : p.chain.map (Leaf.alter (leafName key) f) = p.chain :=
            map_alter_of_forall_ne fun leaf hleaf => hk ▸ h.chain_name leaf hleaf
          rw [Plant.alter, hroot, hchain]
          rfl
      | link index =>
          obtain ⟨-, leaf, hleaf, hname⟩ := h.place?_eq_link_iff.mp hplace
          have hroot : p.root.alter (leafName key) f = p.root := by
            apply Leaf.alter_of_ne
            rw [h.root_name, ← hname]
            exact (h.chain_name leaf (List.mem_of_getElem? hleaf)).symm
          rw [Plant.alter, hroot, ← hname, ← h.modify_chain hleaf f]
          rfl

/-- After a change of content a search finds the leaf it found before, changed if it has the
name. -/
theorem Searchable.find?_alter {p : Plant} (h : p.Searchable) (name : String) {f : Leaf → Leaf}
    (hf : Leaf.IsContent f) (key : String) :
    (p.alter name f).find? key = (p.find? key).map (Leaf.alter name f) := by
  apply Option.ext
  intro leaf
  rw [(h.alter name hf).find?_eq_some_iff, isDefunct_alter p name hf, leaves_alter,
    Option.map_eq_some_iff]
  constructor
  · rintro ⟨hd, hmem, hname⟩
    obtain ⟨old, hold, rfl⟩ := List.mem_map.mp hmem
    rw [(hf.alter name).name] at hname
    exact ⟨old, h.find?_eq_some_iff.mpr ⟨hd, hold, hname⟩, rfl⟩
  · rintro ⟨old, hfind, rfl⟩
    obtain ⟨hd, hold, hname⟩ := h.find?_eq_some_iff.mp hfind
    refine ⟨hd, List.mem_map_of_mem hold, ?_⟩
    rw [(hf.alter name).name]
    exact hname

/-- A change of content moves no leaf. -/
theorem Searchable.place?_alter {p : Plant} (h : p.Searchable) (name : String) {f : Leaf → Leaf}
    (hf : Leaf.IsContent f) (key : String) : (p.alter name f).place? key = p.place? key := by
  have hfind : (p.chain.map (Leaf.alter name f)).findIdx? (·.name == leafName key) =
      p.chain.findIdx? (·.name == leafName key) := by
    rw [List.findIdx?_map]
    congr 1
    funext leaf
    show ((leaf.alter name f).name == leafName key) = (leaf.name == leafName key)
    rw [(hf.alter name).name]
  rw [(h.alter name hf).place?_eq, h.place?_eq, isDefunct_alter p name hf, ← hfind]
  rfl

/-- A change of the content of one leaf misleads no search and moves no leaf. -/
theorem Searchable.modify_keeps {p : Plant} (h : p.Searchable) (key : String) {f : Leaf → Leaf}
    (hf : Leaf.IsContent f) :
    (p.modify key f).Searchable ∧ (p.modify key f).isDefunct = p.isDefunct ∧
      ∀ other, (p.modify key f).place? other = p.place? other := by
  cases hd : p.isDefunct with
  | true =>
      have hplace : p.place? key = none := if_pos hd
      have hsame : p.modify key f = p := by rw [modify, hplace]
      rw [hsame]
      exact ⟨h, hd, fun _ => rfl⟩
  | false =>
      rw [h.modify_eq_alter hd]
      exact ⟨h.alter _ hf, (isDefunct_alter p _ hf).trans hd, h.place?_alter _ hf⟩

/-! ### Linking -/

theorem Searchable.find?_link {p : Plant} (h : p.Searchable) (hd : p.isDefunct = false)
    {leaf : Leaf} (hs : (p.link leaf).Searchable) (key : String) :
    (p.link leaf).find? key = if leaf.name = leafName key then some leaf else p.find? key := by
  apply Option.ext
  intro l
  rw [hs.find?_eq_some_iff]
  have hmem : ∀ l, l ∈ (p.link leaf).leaves ↔ l = leaf ∨ l ∈ p.leaves := by
    intro l
    show l ∈ p.root :: leaf :: p.chain ↔ l = leaf ∨ l ∈ p.root :: p.chain
    rw [List.mem_cons, List.mem_cons, List.mem_cons]
    exact or_left_comm
  rw [hmem]
  -- The new leaf stands first: it hides nothing, since no other leaf has its name.
  by_cases hname : leaf.name = leafName key
  · rw [if_pos hname, Option.some_inj]
    constructor
    · rintro ⟨-, hor, hl⟩
      exact hs.eq_of_name ((hmem _).mpr (.inl rfl)) ((hmem _).mpr hor) (hname.trans hl.symm)
    · rintro rfl
      exact ⟨hd, .inl rfl, hname⟩
  · rw [if_neg hname, h.find?_eq_some_iff]
    constructor
    · rintro ⟨-, rfl | hl, hkey⟩
      · exact absurd hkey hname
      · exact ⟨hd, hl, hkey⟩
    · rintro ⟨-, hl, hkey⟩
      exact ⟨hd, .inr hl, hkey⟩

/-! ### Removing -/

/-- Removing the leaf at an index is removing the leaves of its name. -/
theorem Searchable.eraseIdx_chain {p : Plant} (h : p.Searchable) {index : Nat} {leaf : Leaf}
    (hleaf : p.chain[index]? = some leaf) :
    p.chain.eraseIdx index = p.chain.filter fun l => l.name != leaf.name := by
  obtain ⟨hlt, hget⟩ := List.getElem?_eq_some_iff.mp hleaf
  have hsplit : p.chain = p.chain.take index ++ leaf :: p.chain.drop (index + 1) := by
    rw [← hget, List.getElem_cons_drop, List.take_append_drop]
  -- The name of the leaf stands neither before nor behind it.
  have hnodup := h.chain_nodup
  rw [hsplit, List.map_append, List.map_cons, List.nodup_middle, List.nodup_cons] at hnodup
  have hother : ∀ l ∈ p.chain.take index ++ p.chain.drop (index + 1),
      (l.name != leaf.name) = true := by
    intro l hl
    apply bne_iff_ne.mpr
    intro hname
    apply hnodup.1
    rw [← hname, ← List.map_append]
    exact List.mem_map_of_mem hl
  have hself : ¬ (leaf.name != leaf.name) = true := by
    rw [bne_self_eq_false]
    exact Bool.false_ne_true
  rw [List.eraseIdx_eq_take_drop_succ]
  conv_rhs => rw [hsplit]
  rw [List.filter_append, List.filter_cons, if_neg hself, ← List.filter_append]
  exact (List.filter_eq_self.mpr hother).symm

/-- After a removal a search finds what it found before, unless it is for the removed name. -/
theorem Searchable.find?_without {p : Plant} (h : p.Searchable) {name : String}
    (hroot : name ≠ rootKey) (key : String) :
    (p.without name).find? key = if leafName key = name then none else p.find? key := by
  have hs : (p.without name).Searchable := h.ofSublist List.filter_sublist rfl rfl
  apply Option.ext
  intro leaf
  -- The root has another name, so it stays whatever goes from the chain.
  have hmem : leaf ∈ (p.without name).leaves ↔ leaf ∈ p.leaves ∧ leaf.name ≠ name := by
    simp only [leaves, without, List.mem_cons, List.mem_filter, bne_iff_ne]
    constructor
    · rintro (rfl | ⟨hl, hne⟩)
      · exact ⟨.inl rfl, fun heq => hroot (heq ▸ h.root_name)⟩
      · exact ⟨.inr hl, hne⟩
    · rintro ⟨rfl | hl, hne⟩
      · exact .inl rfl
      · exact .inr ⟨hl, hne⟩
  rw [hs.find?_eq_some_iff, hmem]
  by_cases hk : leafName key = name
  · rw [if_pos hk]
    constructor
    · rintro ⟨-, ⟨-, hne⟩, hname⟩
      exact absurd (hname.trans hk) hne
    · intro hnone
      cases hnone
  · rw [if_neg hk, h.find?_eq_some_iff]
    constructor
    · rintro ⟨hd, ⟨hl, -⟩, hname⟩
      exact ⟨hd, hl, hname⟩
    · rintro ⟨hd, hl, hname⟩
      exact ⟨hd, ⟨hl, fun heq => hk (hname.symm.trans heq)⟩, hname⟩

omit [KeyHash] in
/-- A sweep only takes leaves out. -/
theorem sweep_sublist (p : Plant) (start : Nat) : (p.sweep start).chain.Sublist p.chain := by
  have hsub := List.Sublist.append (List.Sublist.refl (p.chain.take start))
    (List.filter_sublist (p := Leaf.isUndeletable) (l := p.chain.drop start))
  rw [List.take_append_drop] at hsub
  exact hsub

omit [KeyHash] in
/-- A sweep takes no undeletable leaf out. -/
theorem mem_sweep {p : Plant} {leaf : Leaf} (hleaf : leaf ∈ p.chain)
    (hu : leaf.isUndeletable = true) (start : Nat) : leaf ∈ (p.sweep start).chain := by
  rw [← List.take_append_drop start p.chain, List.mem_append] at hleaf
  exact List.mem_append.mpr (hleaf.imp id fun hrest => List.mem_filter.mpr ⟨hrest, hu⟩)

theorem Searchable.sweep {p : Plant} (h : p.Searchable) (start : Nat) :
    (p.sweep start).Searchable :=
  h.ofSublist (p.sweep_sublist start) rfl rfl

/-- After a sweep of the whole chain a search finds the root and the undeletable leaves. -/
theorem Searchable.find?_sweep {p : Plant} (h : p.Searchable) (key : String) :
    (p.sweep 0).find? key =
      (p.find? key).filter fun leaf => leafName key == rootKey || leaf.isUndeletable := by
  apply Option.ext
  intro leaf
  rw [(h.sweep 0).find?_eq_some_iff, Option.filter_eq_some_iff, h.find?_eq_some_iff]
  have hmem : leaf ∈ (p.sweep 0).leaves ↔
      leaf = p.root ∨ leaf ∈ p.chain ∧ leaf.isUndeletable = true := by
    simp [leaves, Plant.sweep]
  rw [hmem]
  constructor
  · rintro ⟨hd, rfl | ⟨hl, hu⟩, hname⟩
    · refine ⟨⟨hd, List.mem_cons_self, hname⟩, ?_⟩
      rw [← hname, h.root_name, BEq.rfl, Bool.true_or]
    · exact ⟨⟨hd, List.mem_cons_of_mem _ hl, hname⟩, by rw [hu, Bool.or_true]⟩
  · rintro ⟨⟨hd, hl, hname⟩, hkeep⟩
    refine ⟨hd, ?_, hname⟩
    rcases List.mem_cons.mp hl with rfl | hl
    · exact .inl rfl
    · have hne : (leafName key == rootKey) = false :=
        beq_false_of_ne (hname ▸ h.chain_name leaf hl)
      rw [hne, Bool.false_or] at hkeep
      exact .inr ⟨hl, hkeep⟩

omit [KeyHash] in
theorem isDefunct_bury (p : Plant) : p.bury.isDefunct = true := by
  show (p.root.flags.insert .defunct).contains .defunct = true
  simp

/-- A search in a freed plant finds nothing. -/
theorem find?_of_isDefunct {p : Plant} (h : p.isDefunct = true) (key : String) :
    p.find? key = none := by
  rw [find?, place?, if_pos h]
  rfl

end Plant
end PlantStore
