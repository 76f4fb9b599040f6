import PlantStore.Proofs.Reachable

/-! # A `free` filters the chain

A `free` goes along the chain leaf by leaf. It passes a leaf that is undeletable and takes any
other one out, after which it looks at what stands behind the leaf that it passed last. What this
loop leaves is the sublist of the undeletable leaves, whatever their pattern. From it follow the
three ways in which a `free` ends, that a refused one may be repeated without effect, and that it
succeeds once no leaf is undeletable any more. -/

namespace PlantStore
namespace Plant

/-! ### Leaf by leaf -/

theorem length_removeAt_lt {p : Plant} {index : Nat} {leaf : Leaf}
    (hleaf : p.chain[index]? = some leaf) (hu : leaf.isUndeletable = false) :
    (p.removeAt index).plant.chain.length < p.chain.length := by
  obtain ⟨hlt, -⟩ := List.getElem?_eq_some_iff.mp hleaf
  rw [removeAt, hleaf]
  simp only [hu, if_neg Bool.false_ne_true]
  rw [List.length_eraseIdx_of_lt hlt]
  omega

/-- Removes the leaves that may be removed, one at a time. The loop has passed the first `index`
leaves; a leaf that it takes out makes room for the next one at the same place. -/
def walk (p : Plant) (index : Nat) : Outcome Unit :=
  match _hleaf : p.chain[index]? with
  | none => ⟨(), p, []⟩
  | some leaf =>
    if hu : leaf.isUndeletable then p.walk (index + 1)
    else
      let removal := p.removeAt index
      let rest := removal.plant.walk index
      ⟨(), rest.plant, removal.events ++ rest.events⟩
termination_by p.chain.length - index
decreasing_by
  · obtain ⟨hlt, -⟩ := List.getElem?_eq_some_iff.mp _hleaf
    omega
  · obtain ⟨hlt, -⟩ := List.getElem?_eq_some_iff.mp _hleaf
    have hless := length_removeAt_lt _hleaf (Bool.eq_false_iff.mpr hu)
    omega

/-- A `free` whose loop goes leaf by leaf. -/
def freeByWalk [KeyHash] (p : Plant) : Outcome (Result Unit) :=
  if p.root.isUndeletable then ⟨.error .undeletable, p, []⟩
  else if p.isDefunct then ⟨.error .noSuchLeaf, p, []⟩
  else
    let walked := p.walk 0
    if !walked.plant.chain.isEmpty then
      ⟨.error .undeletable, walked.plant, walked.events ++
        walked.plant.getEvents rootKey 0 ++ [.keptAlive walked.plant.type.toOption]⟩
    else if walked.plant.root.isUndeletable then
      ⟨.error .undeletable, walked.plant, walked.events⟩
    else
      ⟨.ok (), walked.plant.bury, walked.events ++ p.report .freed⟩

/-- The leaf at an index stands between the leaves before it and those behind it. -/
theorem split_chain {p : Plant} {index : Nat} {leaf : Leaf} (hleaf : p.chain[index]? = some leaf) :
    p.chain.drop index = leaf :: p.chain.drop (index + 1) ∧
      p.chain.take (index + 1) = p.chain.take index ++ [leaf] := by
  obtain ⟨hlt, rfl⟩ := List.getElem?_eq_some_iff.mp hleaf
  exact ⟨List.drop_eq_getElem_cons hlt, List.take_succ_eq_append_getElem hlt⟩

/-- The loop takes out and reports what a sweep does. -/
theorem walk_eq_sweep (p : Plant) (index : Nat) :
    p.walk index = ⟨(), p.sweep index, p.sweepEvents index⟩ := by
  fun_induction walk p index with
  | case1 p index hleaf =>
      -- All leaves have been passed.
      have hend : p.chain.length ≤ index := List.getElem?_eq_none_iff.mp hleaf
      rw [sweep, sweepEvents, List.drop_of_length_le hend, List.take_of_length_le hend,
        List.filter_nil, List.append_nil]
      rfl
  | case2 p index leaf hleaf hu ih =>
      obtain ⟨hdrop, htake⟩ := split_chain hleaf
      have hgoes : (leaf :: p.chain.drop (index + 1)).filter (fun leaf => !leaf.isUndeletable) =
          (p.chain.drop (index + 1)).filter fun leaf => !leaf.isUndeletable :=
        List.filter_cons_of_neg (by simp [hu])
      rw [ih, sweep, sweep, sweepEvents, sweepEvents, hdrop, htake, List.filter_cons_of_pos hu,
        hgoes, List.append_assoc, List.singleton_append]
  | case3 p index leaf hleaf hu removal rest ih =>
      -- The leaf is gone, and what stood behind it is at its place.
      obtain ⟨hdrop, -⟩ := split_chain hleaf
      obtain ⟨hlt, -⟩ := List.getElem?_eq_some_iff.mp hleaf
      have hgoes : (leaf :: p.chain.drop (index + 1)).filter (fun leaf => !leaf.isUndeletable) =
          leaf :: (p.chain.drop (index + 1)).filter fun leaf => !leaf.isUndeletable :=
        List.filter_cons_of_pos (by simp [hu])
      have hremoval : removal =
          ⟨.ok (), { p with chain := p.chain.eraseIdx index }, [.unlinked leaf.name]⟩ := by
        show p.removeAt index = _
        rw [removeAt, hleaf]
        exact if_neg hu
      have htake : (p.chain.eraseIdx index).take index = p.chain.take index := by
        rw [List.eraseIdx_eq_take_drop_succ]
        exact List.take_left' (List.length_take_of_le (Nat.le_of_lt hlt))
      have hrest : (p.chain.eraseIdx index).drop index = p.chain.drop (index + 1) := by
        rw [List.eraseIdx_eq_take_drop_succ]
        exact List.drop_left' (List.length_take_of_le (Nat.le_of_lt hlt))
      show (⟨(), (removal.plant.walk index).plant,
        removal.events ++ (removal.plant.walk index).events⟩ : Outcome Unit) = _
      rw [ih, hremoval]
      simp only [sweep, sweepEvents, htake, hrest, hdrop]
      rw [List.filter_cons_of_neg hu, hgoes, List.map_cons]
      rfl

section

variable [KeyHash]

/-- A `free` is a `free` that goes leaf by leaf. -/
theorem free_eq_freeByWalk (p : Plant) : p.free = p.freeByWalk := by
  rw [free, freeAfterWait, freeByWalk, walk_eq_sweep]
  rfl

/-! ### The three ends -/

section

variable {p : Plant} (hu : p.root.isUndeletable = false) (hd : p.isDefunct = false)

include hu hd

/-- Some leaf stays, and with it all that are undeletable. -/
theorem free_of_kept (hkept : ∃ leaf ∈ p.chain, leaf.isUndeletable = true) :
    p.free.answer = .error .undeletable ∧
      p.free.plant = { p with chain := p.chain.filter Leaf.isUndeletable } := by
  have hne : (p.sweep 0).chain ≠ [] := by
    obtain ⟨leaf, hleaf, hleafu⟩ := hkept
    exact List.ne_nil_of_mem (mem_sweep hleaf hleafu 0)
  rcases p.free_cases with ⟨hu', -⟩ | ⟨-, hd', -⟩ | ⟨-, -, hfree⟩
  · simp [hu] at hu'
  · simp [hd] at hd'
  rw [hfree]
  rcases p.freeFrom_cases 0 with ⟨-, ha, hp⟩ | ⟨hnil, -⟩ | ⟨hnil, -⟩
  · exact ⟨ha, hp⟩
  · exact absurd hnil hne
  · exact absurd hnil hne

/-- No leaf stays. -/
theorem free_of_none_kept (hnone : ∀ leaf ∈ p.chain, leaf.isUndeletable = false) :
    p.free.answer = .ok () ∧ p.free.plant = { p with chain := [] }.bury := by
  have hnil : (p.sweep 0).chain = [] :=
    List.filter_eq_nil_iff.mpr fun leaf hleaf => Bool.eq_false_iff.mp (hnone leaf hleaf)
  have hsweep : p.sweep 0 = { p with chain := [] } := congrArg (fun c => { p with chain := c }) hnil
  rcases p.free_cases with ⟨hu', -⟩ | ⟨-, hd', -⟩ | ⟨-, -, hfree⟩
  · simp [hu] at hu'
  · simp [hd] at hd'
  rw [hfree, ← hsweep]
  rcases p.freeFrom_cases 0 with ⟨hne, -⟩ | ⟨-, hu', -⟩ | ⟨-, -, ha, hp⟩
  · exact absurd hnil hne
  · simp [hu] at hu'
  · exact ⟨ha, hp⟩

end

/-- A refused `free` of a live plant has left a root or leaves that are undeletable, so that it is
refused again and changes nothing. -/
theorem free_of_refused {p : Plant} (hd : p.isDefunct = false) {e : StoreError}
    (hrefused : p.free.answer = .error e) :
    p.free.plant.isDefunct = false ∧ p.free.plant.free.answer = .error .undeletable ∧
      p.free.plant.free.plant = p.free.plant := by
  cases hu : p.root.isUndeletable with
  | true =>
      have hfree : p.free = ⟨.error .undeletable, p, []⟩ := if_pos hu
      have hagain : p.free.plant = p := congrArg Outcome.plant hfree
      rw [hagain]
      exact ⟨hd, congrArg Outcome.answer hfree, hagain⟩
  | false =>
      -- What is left after a sweep is undeletable, so the same leaves refuse again.
      by_cases hkept : ∃ leaf ∈ p.chain, leaf.isUndeletable = true
      · obtain ⟨-, hp⟩ := free_of_kept hu hd hkept
        obtain ⟨leaf, hleaf, hleafu⟩ := hkept
        rw [hp]
        have hmem : leaf ∈ p.chain.filter Leaf.isUndeletable := List.mem_filter.mpr ⟨hleaf, hleafu⟩
        obtain ⟨ha, hp'⟩ := free_of_kept (p := { p with chain := p.chain.filter _ }) hu hd
          ⟨leaf, hmem, hleafu⟩
        refine ⟨hd, ha, ?_⟩
        rw [hp']
        simp only [List.filter_filter, Bool.and_self]
      · have hnone : ∀ leaf ∈ p.chain, leaf.isUndeletable = false := by
          intro leaf hleaf
          exact Bool.eq_false_iff.mpr fun hleafu => hkept ⟨leaf, hleaf, hleafu⟩
        rw [(free_of_none_kept hu hd hnone).1] at hrefused
        cases hrefused

/-! ### Clearing the flags -/

/-- The leaves that are still undeletable after one of them has been cleared were so before, and
have another name. -/
theorem undeletable_of_setFlags {p : Plant} (hs : p.Searchable) (hd : p.isDefunct = false)
    (key : String) {flags : LeafFlags} (hclear : flags.contains .undeletable = false) :
    ∀ leaf ∈ (p.setFlags key flags).plant.leaves, leaf.isUndeletable = true →
      leaf ∈ p.leaves ∧ leaf.name ≠ leafName key := by
  intro leaf hleaf hu
  rw [setFlags] at hleaf
  rcases hs.change_cases key (fun leaf => { leaf with flags := leaf.flags.replaceVisible flags })
    with ⟨hfind, -, hp⟩ | ⟨-, -, -, hp⟩
  · rw [hp] at hleaf
    exact ⟨hleaf, hs.ne_of_find?_none hd hfind leaf hleaf⟩
  · rw [hp, leaves_alter] at hleaf
    obtain ⟨old, hold, rfl⟩ := List.mem_map.mp hleaf
    by_cases hname : old.name = leafName key
    · rw [Leaf.alter_of_name hname, Leaf.isUndeletable] at hu
      simp only [LeafFlags.contains_undeletable] at hclear
      simp [hclear] at hu
    · rw [Leaf.alter_of_ne hname]
      exact ⟨hold, hname⟩

/-- After flags have been cleared, what is still undeletable has not been named. -/
theorem undeletable_of_clearing {p : Plant} (hp : p.WellFormed) (hd : p.isDefunct = false)
    {clears : List (String × LeafFlags)}
    (hclear : ∀ clear ∈ clears, clear.2.contains .undeletable = false) :
    let q := (p.run (clears.map fun clear => .setFlags clear.1 clear.2)).1
    q.isDefunct = false ∧ ∀ leaf ∈ q.leaves, leaf.isUndeletable = true →
      leaf ∈ p.leaves ∧ ∀ clear ∈ clears, leaf.name ≠ leafName clear.1 := by
  induction clears generalizing p with
  | nil => exact ⟨hd, fun leaf hleaf _ => ⟨hleaf, fun clear hmem => by cases hmem⟩⟩
  | cons first rest ih =>
      have hfirst := hclear first List.mem_cons_self
      have hd' : (p.setFlags first.1 first.2).plant.isDefunct = false :=
        (hp.isDefunct_change first.1 (Leaf.isContent_flags first.2)).trans hd
      obtain ⟨hlive, hrest⟩ := ih (hp.setFlags first.1 first.2) hd' fun clear hmem =>
        hclear clear (List.mem_cons_of_mem _ hmem)
      refine ⟨hlive, fun leaf hleaf hu => ?_⟩
      obtain ⟨hmem, hother⟩ := hrest leaf hleaf hu
      obtain ⟨hold, hname⟩ := undeletable_of_setFlags hp.toSearchable hd first.1 hfirst leaf hmem hu
      refine ⟨hold, fun clear hclears => ?_⟩
      rcases List.mem_cons.mp hclears with rfl | htail
      · exact hname
      · exact hother clear htail

/-- Once every undeletable leaf has been named in a clearing, a `free` succeeds. -/
theorem free_of_clearing {p : Plant} (hp : p.WellFormed) (hd : p.isDefunct = false)
    {clears : List (String × LeafFlags)}
    (hclear : ∀ clear ∈ clears, clear.2.contains .undeletable = false)
    (hall : ∀ leaf ∈ p.leaves, leaf.isUndeletable = true →
      ∃ clear ∈ clears, leafName clear.1 = leaf.name) :
    (p.run (clears.map fun clear => .setFlags clear.1 clear.2)).1.free.answer = .ok () := by
  obtain ⟨hlive, hleft⟩ := undeletable_of_clearing hp hd hclear
  have hnone : ∀ leaf ∈ (p.run (clears.map fun clear => .setFlags clear.1 clear.2)).1.leaves,
      leaf.isUndeletable = false := by
    intro leaf hleaf
    apply Bool.eq_false_iff.mpr
    intro hu
    obtain ⟨hmem, hother⟩ := hleft leaf hleaf hu
    obtain ⟨clear, hclears, hname⟩ := hall leaf hmem hu
    exact hother clear hclears hname.symm
  exact (free_of_none_kept (hnone _ List.mem_cons_self) hlive fun leaf hleaf =>
    hnone leaf (List.mem_cons_of_mem _ hleaf)).1

/-! ### The theorem -/

/-- A `free` of a live plant goes leaf by leaf. It is refused before it removes anything, or it
leaves the undeletable leaves in their order, or it leaves nothing and the plant is freed. After a
refusal a second one changes nothing, and one that comes when every leaf has been cleared, the
root too, succeeds. -/
theorem free_filters {p : Plant} (h : p.Reachable) (hd : p.isDefunct = false) :
    p.free = p.freeByWalk ∧
    (p.root.isUndeletable = true → p.free.answer = .error .undeletable ∧ p.free.plant = p) ∧
    (p.root.isUndeletable = false → (∃ leaf ∈ p.chain, leaf.isUndeletable = true) →
      p.free.answer = .error .undeletable ∧
        p.free.plant = { p with chain := p.chain.filter Leaf.isUndeletable }) ∧
    (p.root.isUndeletable = false → (∀ leaf ∈ p.chain, leaf.isUndeletable = false) →
      p.free.answer = .ok () ∧ p.free.plant.isDefunct = true ∧ p.free.plant.chain = [] ∧
        p.free.plant.names = [] ∧ ∀ key, p.free.plant.find? key = none) ∧
    (∀ e, p.free.answer = .error e →
      (p.free.plant.free.answer = .error .undeletable ∧
        p.free.plant.free.plant = p.free.plant) ∧
      ∀ clears : List (String × LeafFlags),
        (∀ clear ∈ clears, clear.2.contains .undeletable = false) →
        (∀ leaf ∈ p.free.plant.leaves, leaf.isUndeletable = true →
          ∃ clear ∈ clears, leafName clear.1 = leaf.name) →
        (p.free.plant.run
          (clears.map fun clear => .setFlags clear.1 clear.2)).1.free.answer = .ok ()) := by
  refine ⟨p.free_eq_freeByWalk, ?_, fun hu => free_of_kept hu hd, ?_, ?_⟩
  · intro hu
    have hfree : p.free = ⟨.error .undeletable, p, []⟩ := if_pos hu
    rw [hfree]
    exact ⟨rfl, rfl⟩
  · intro hu hnone
    obtain ⟨ha, hp⟩ := free_of_none_kept hu hd hnone
    have hfreed : p.free.plant.isDefunct = true := by
      rw [hp]
      exact isDefunct_bury _
    refine ⟨ha, hfreed, ?_, if_pos hfreed, find?_of_isDefunct hfreed⟩
    rw [hp]
    rfl
  · intro e hrefused
    obtain ⟨hlive, hagain⟩ := free_of_refused hd hrefused
    exact ⟨hagain, fun clears => free_of_clearing h.wellFormed.free hlive⟩

end

/-- Undeletable leaves at both ends of the chain, and one between them that may go. -/
theorem free_filters_of_mixed :
    let p := ((Plant.make 7 false).run
      [.set "a" .int [.int 1], .set "b" .int [.int 2], .set "c" .int [.int 3],
        .setFlags "a" .undeletable, .setFlags "c" .undeletable]).1
    let clears := [("c", LeafFlags.immutable), ("a", .empty)]
    p.Reachable ∧ p.isDefunct = false ∧ p.free.answer = .error .undeletable ∧
      p.free.plant.names = ["type", "c", "a"] ∧ p.free.plant.free.plant = p.free.plant ∧
      (p.free.plant.run (clears.map fun clear => .setFlags clear.1 clear.2)).1.free.answer =
        .ok () := by
  intro p clears
  have hp : p.Reachable := .call (.call (.call (.call (.call (.make 7 false) _) _) _) _) _
  have hd : p.isDefunct = false := by decide +kernel
  obtain ⟨-, -, hkept, -, hrefused⟩ := free_filters hp hd
  obtain ⟨ha, hplant⟩ := hkept (by decide +kernel) (by decide +kernel)
  obtain ⟨⟨-, hagain⟩, hcleared⟩ := hrefused _ ha
  refine ⟨hp, hd, ha, ?_, hagain, hcleared clears (by decide +kernel) ?_⟩
  · rw [hplant]
    decide +kernel
  · rw [hplant]
    decide +kernel

end Plant
end PlantStore
