import Mathlib.Data.List.Nodup
import PlantStore.Plant.Write
import PlantStore.Proofs.Leaf

/-! # Finding a leaf

A plant in which the leaves of the chain have different names, none of them the root's, and
every leaf stores the hash of its name, is searched by name alone: `find?` answers with the one
leaf that has the name, wherever it stands, and a change of the leaf of a key is a change of
all leaves of that name. -/

namespace PlantStore

/-- The name of the leaf that a key stands for. The empty key stands for the root. -/
def leafName (key : String) : String := if key.isEmpty then rootKey else key

theorem leafName_of_ne {key : String} (h : key.isEmpty = false) : leafName key = key := by
  rw [leafName, h]
  rfl

@[simp] theorem leafName_rootKey : leafName rootKey = rootKey := by
  rw [leafName]
  split <;> rfl

@[simp] theorem leafName_leafName (key : String) : leafName (leafName key) = leafName key := by
  by_cases h : key.isEmpty = true
  · have hroot : leafName key = rootKey := if_pos h
    rw [hroot, leafName_rootKey]
  · rw [leafName_of_ne (Bool.eq_false_iff.mpr h),
      leafName_of_ne (Bool.eq_false_iff.mpr h)]

theorem leafName_ne_empty (key : String) : leafName key ≠ "" := by
  intro h
  rw [leafName] at h
  split at h
  · exact absurd h (by decide : ¬rootKey = "")
  next hfilled => exact hfilled (h ▸ rfl)

theorem leafName_eq_rootKey_iff {key : String} :
    leafName key = rootKey ↔ key = "" ∨ key = rootKey := by
  cases hempty : key.isEmpty with
  | true =>
      have hkey := String.isEmpty_iff.mp hempty
      exact ⟨fun _ => .inl hkey, fun _ => if_pos hempty⟩
  | false =>
      rw [leafName_of_ne hempty]
      refine ⟨.inr, ?_⟩
      rintro (rfl | hkey)
      · cases hempty
      · exact hkey

/-- Only the empty key is not the name that it stands for. -/
theorem leafName_eq_self {key : String} (h : leafName key ≠ rootKey) : leafName key = key := by
  apply leafName_of_ne
  cases hempty : key.isEmpty with
  | false => rfl
  | true => exact absurd (if_pos hempty) h

/-- Among leaves that store the hashes of their names, a search goes by names. -/
theorem Leaf.findIdx?_answersTo [KeyHash] {leaves : List Leaf}
    (h : ∀ leaf ∈ leaves, leaf.hash = KeyHash.hash leaf.name) (key : String) :
    leaves.findIdx? (·.answersTo key (KeyHash.hash key)) = leaves.findIdx? (·.name == key) := by
  induction leaves with
  | nil => rfl
  | cons leaf leaves ih =>
      rw [List.findIdx?_cons, List.findIdx?_cons, Leaf.answersTo_eq (h leaf List.mem_cons_self),
        ih fun other hother => h other (List.mem_cons_of_mem _ hother)]

namespace Plant

/-- All leaves, the root first. -/
def leaves (p : Plant) : List Leaf := p.root :: p.chain

variable [KeyHash]

/-- What a search relies on. -/
structure Searchable (p : Plant) : Prop where
  hash_eq : ∀ leaf ∈ p.leaves, leaf.hash = KeyHash.hash leaf.name
  root_name : p.root.name = rootKey
  chain_name : ∀ leaf ∈ p.chain, leaf.name ≠ rootKey
  chain_filled : ∀ leaf ∈ p.chain, leaf.name.isEmpty = false
  chain_nodup : (p.chain.map Leaf.name).Nodup

section Search

variable {p : Plant} (h : p.Searchable)

include h

theorem Searchable.nodup : (p.leaves.map Leaf.name).Nodup := by
  rw [leaves, List.map_cons, List.nodup_cons]
  refine ⟨?_, h.chain_nodup⟩
  rw [h.root_name]
  intro hmem
  obtain ⟨leaf, hleaf, hname⟩ := List.mem_map.mp hmem
  exact h.chain_name leaf hleaf hname

/-- Two leaves of one name are one leaf. -/
theorem Searchable.eq_of_name {a b : Leaf} (ha : a ∈ p.leaves) (hb : b ∈ p.leaves)
    (hname : a.name = b.name) : a = b :=
  List.inj_on_of_nodup_map h.nodup ha hb hname

/-- Leaves of the chain with one name stand at one index. -/
theorem Searchable.index_eq_of_name {i j : Nat} (hi : i < p.chain.length)
    (hj : j < p.chain.length) (hname : p.chain[i].name = p.chain[j].name) : i = j := by
  have hi' : i < (p.chain.map Leaf.name).length := by simpa using hi
  have hj' : j < (p.chain.map Leaf.name).length := by simpa using hj
  have hsame : (p.chain.map Leaf.name)[i] = (p.chain.map Leaf.name)[j] := by
    rw [List.getElem_map, List.getElem_map, hname]
  exact (List.Nodup.getElem_inj_iff h.chain_nodup).mp hsame

/-- No leaf has the empty name. -/
theorem Searchable.name_filled {leaf : Leaf} (hleaf : leaf ∈ p.leaves) :
    leafName leaf.name = leaf.name := by
  rcases List.mem_cons.mp hleaf with rfl | hchain
  · rw [h.root_name, leafName_rootKey]
  · exact leafName_of_ne (h.chain_filled leaf hchain)

/-! ### Places -/

theorem Searchable.findIdx?_answersTo (key : String) :
    p.chain.findIdx? (·.answersTo key (KeyHash.hash key)) =
      p.chain.findIdx? (·.name == key) :=
  Leaf.findIdx?_answersTo (fun leaf hleaf => h.hash_eq leaf (List.mem_cons_of_mem _ hleaf)) key

/-- A search goes by names. -/
theorem Searchable.place?_eq (key : String) :
    p.place? key =
      if p.isDefunct then none
      else if leafName key = rootKey then some .root
      else (p.chain.findIdx? (·.name == leafName key)).map .link := by
  rw [place?]
  by_cases hd : p.isDefunct = true
  · rw [if_pos hd, if_pos hd]
  rw [if_neg hd, if_neg hd]
  by_cases he : key.isEmpty = true
  · have hk : leafName key = rootKey := if_pos he
    rw [if_pos he, if_pos hk]
  rw [if_neg he, leafName_of_ne (Bool.eq_false_iff.mpr he)]
  -- Every leaf stores the hash of its name, so to compare hashes first makes no difference.
  have hroot : p.root.answersTo key (KeyHash.hash key) = (rootKey == key) := by
    rw [Leaf.answersTo_eq (h.hash_eq p.root List.mem_cons_self), h.root_name]
  by_cases hk : key = rootKey
  · rw [beq_iff_eq.mpr hk.symm] at hroot
    rw [if_pos hk]
    exact if_pos hroot
  · rw [beq_false_of_ne (Ne.symm hk)] at hroot
    rw [if_neg hk, ← h.findIdx?_answersTo]
    exact if_neg (Bool.eq_false_iff.mp hroot)

/-- A key and the name that it stands for have one place. -/
theorem Searchable.place?_leafName (key : String) : p.place? (leafName key) = p.place? key := by
  rw [h.place?_eq, h.place?_eq, leafName_leafName]

/-- The leaf at the place of a key has the name that the key stands for. -/
theorem Searchable.place?_eq_link_iff {key : String} {index : Nat} :
    p.place? key = some (.link index) ↔
      p.isDefunct = false ∧ ∃ leaf, p.chain[index]? = some leaf ∧ leaf.name = leafName key := by
  rw [h.place?_eq]
  by_cases hd : p.isDefunct = true
  · simp [hd]
  rw [if_neg hd]
  have hd' : p.isDefunct = false := Bool.eq_false_iff.mpr hd
  by_cases hk : leafName key = rootKey
  · rw [if_pos hk, hk]
    constructor
    · intro hr
      cases hr
    · rintro ⟨-, leaf, hleaf, hname⟩
      exact absurd hname (h.chain_name leaf (List.mem_of_getElem? hleaf))
  rw [if_neg hk, Option.map_eq_some_iff]
  constructor
  · rintro ⟨i, hi, heq⟩
    cases heq
    obtain ⟨hlt, hname, -⟩ := List.findIdx?_eq_some_iff_getElem.mp hi
    exact ⟨hd', p.chain[index], List.getElem?_eq_getElem hlt, by simpa using hname⟩
  · rintro ⟨-, leaf, hleaf, hname⟩
    refine ⟨index, ?_, rfl⟩
    obtain ⟨hlt, rfl⟩ := List.getElem?_eq_some_iff.mp hleaf
    refine List.findIdx?_eq_some_iff_getElem.mpr ⟨hlt, by simpa using hname, ?_⟩
    intro j hj hjname
    -- An earlier leaf of the name would be the same leaf at another index.
    have hsame : p.chain[j].name = p.chain[index].name :=
      (beq_iff_eq.mp hjname).trans hname.symm
    exact absurd (h.index_eq_of_name (Nat.lt_trans hj hlt) hlt hsame) (Nat.ne_of_lt hj)

theorem Searchable.place?_eq_root_iff {key : String} :
    p.place? key = some .root ↔ p.isDefunct = false ∧ leafName key = rootKey := by
  rw [h.place?_eq]
  by_cases hd : p.isDefunct = true
  · simp [hd]
  by_cases hk : leafName key = rootKey
  · simp [hd, hk]
  · simp [hd, hk]

theorem Searchable.place?_beq_root (hd : p.isDefunct = false) (key : String) :
    (p.place? key == some .root) = (leafName key == rootKey) := by
  rw [Bool.eq_iff_iff, beq_iff_eq, beq_iff_eq, h.place?_eq_root_iff]
  exact ⟨fun hp => hp.2, fun hk => ⟨hd, hk⟩⟩

/-! ### Leaves -/

/-- A search answers with the leaf of the name that a key stands for. -/
theorem Searchable.find?_eq_some_iff {key : String} {leaf : Leaf} :
    p.find? key = some leaf ↔
      p.isDefunct = false ∧ leaf ∈ p.leaves ∧ leaf.name = leafName key := by
  rw [find?, Option.bind_eq_some_iff]
  constructor
  · rintro ⟨place, hplace, hleaf⟩
    cases place with
    | root =>
        obtain ⟨hd, hk⟩ := h.place?_eq_root_iff.mp hplace
        obtain rfl : p.root = leaf := Option.some.inj hleaf
        exact ⟨hd, List.mem_cons_self, h.root_name.trans hk.symm⟩
    | link index =>
        obtain ⟨hd, other, hother, hname⟩ := h.place?_eq_link_iff.mp hplace
        obtain rfl : other = leaf := Option.some.inj (hother.symm.trans hleaf)
        exact ⟨hd, List.mem_cons_of_mem _ (List.mem_of_getElem? hother), hname⟩
  · rintro ⟨hd, hmem, hname⟩
    -- Names are unique, so the leaf is where the search ends.
    rcases List.mem_cons.mp hmem with rfl | hchain
    · exact ⟨.root, h.place?_eq_root_iff.mpr ⟨hd, hname.symm.trans h.root_name⟩, rfl⟩
    · obtain ⟨index, hindex⟩ := List.getElem?_of_mem hchain
      exact ⟨.link index, h.place?_eq_link_iff.mpr ⟨hd, leaf, hindex, hname⟩, hindex⟩

/-- A search finds nothing in a plant that has been freed, and nothing under a name that no
leaf has. -/
theorem Searchable.find?_eq_none_iff {key : String} :
    p.find? key = none ↔ p.isDefunct = true ∨ ∀ leaf ∈ p.leaves, leaf.name ≠ leafName key := by
  rw [Option.eq_none_iff_forall_ne_some]
  constructor
  · intro hnone
    by_cases hd : p.isDefunct = true
    · exact .inl hd
    · right
      intro leaf hmem hname
      exact hnone leaf (h.find?_eq_some_iff.mpr ⟨Bool.eq_false_iff.mpr hd, hmem, hname⟩)
  · rintro hor leaf hsome
    obtain ⟨hd, hmem, hname⟩ := h.find?_eq_some_iff.mp hsome
    rcases hor with hdef | hall
    · rw [hd] at hdef
      cases hdef
    · exact hall leaf hmem hname

/-- In a plant that has not been freed, a search finds nothing only if no leaf has the name. -/
theorem Searchable.ne_of_find?_none (hd : p.isDefunct = false) {key : String}
    (hfind : p.find? key = none) : ∀ leaf ∈ p.leaves, leaf.name ≠ leafName key := by
  rcases h.find?_eq_none_iff.mp hfind with hdef | hall
  · rw [hd] at hdef
    cases hdef
  · exact hall

theorem Searchable.find?_leafName (key : String) : p.find? (leafName key) = p.find? key := by
  rw [find?, find?, h.place?_leafName]

theorem Searchable.has_leafName (key : String) : p.has (leafName key) = p.has key := by
  rw [has, has, h.find?_leafName]

end Search

theorem has_eq_true_iff {p : Plant} {key : String} :
    p.has key = true ↔ ∃ leaf, p.find? key = some leaf := by
  rw [has, Option.isSome_iff_exists]

theorem has_eq_false_iff {p : Plant} {key : String} : p.has key = false ↔ p.find? key = none := by
  rw [has, Option.isSome_eq_false_iff, Option.isNone_iff_eq_none]

/-! ### Questions -/

section Ask

variable {α : Type} {p : Plant} {key : String}

theorem ask_of_find?_some {leaf : Leaf} (h : p.find? key = some leaf)
    (question : Leaf → Result α) : p.ask key question = question leaf := by
  rw [ask, h]

theorem ask_of_find?_none (h : p.find? key = none) (question : Leaf → Result α) :
    p.ask key question = .error .noSuchLeaf := by
  rw [ask, h]

theorem askOr_of_find?_some {leaf : Leaf} (h : p.find? key = some leaf) (absent : α)
    (question : Leaf → α) : p.askOr key absent question = question leaf := by
  rw [askOr, h]

theorem askOr_of_find?_none (h : p.find? key = none) (absent : α) (question : Leaf → α) :
    p.askOr key absent question = absent := by
  rw [askOr, h]

end Ask

end Plant
end PlantStore
