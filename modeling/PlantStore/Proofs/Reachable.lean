import PlantStore.Proofs.Overlap.Finish

/-! # Reachable plants

Every plant that calls and admissible overlaps make out of a new one is well-formed. The last
theorem spells out what that says of the stored data: the names, the hashes, the seeds, the
bytes of the elements and the marks. -/

namespace PlantStore

/-! ### The bytes of an element -/

/-- The form in which an element is stored under a seed. -/
def Element.HasForm (s : Seed) : Element → Prop
  | .owned bytes =>
    (s = .int ∨ s = .boolean) ∧ bytes.length = 4 ∨
    (s = .int64 ∨ s = .double) ∧ bytes.length = 8 ∨
    s = .string ∧ ∃ text, bytes = Text.utf8Bytes text
  | .unowned _ => s.isPointer = true

/-- A value that fits a seed is stored in the form of the seed. -/
theorem Element.hasForm_ofValue {v : Value} {s : Seed} (h : v.fits s = true) :
    (Element.ofValue v).HasForm s := by
  cases v with
  | int n => exact .inl ⟨.inl (beq_iff_eq.mp h), length_littleEndian _ _⟩
  | boolean b => exact .inl ⟨.inr (beq_iff_eq.mp h), length_littleEndian _ _⟩
  | int64 n => exact .inr (.inl ⟨.inl (beq_iff_eq.mp h), length_littleEndian _ _⟩)
  | double d => exact .inr (.inl ⟨.inr (beq_iff_eq.mp h), length_littleEndian _ _⟩)
  | string text => exact .inr (.inr ⟨beq_iff_eq.mp h, text, rfl⟩)
  | pointer word => exact h

namespace Plant

section

variable [KeyHash]

/-- Every reachable plant is well-formed. -/
theorem Reachable.wellFormed {p : Plant} (h : p.Reachable) : p.WellFormed := by
  induction h with
  | make type debug => exact WellFormed.make type debug
  | call _ c ih => exact ih.perform c
  | overlap _ hadm ih => exact Overlap.wellFormed_run ih hadm

/-- What is stored in a reachable plant. The root is the leaf named `type`, all names are
different and none is empty, each leaf stores the hash of its name, a seed that a leaf can have
and elements in the form of that seed; no leaf is marked, save the root of a freed plant; a root
that is not freed has one element, and a freed one is all that is left, empty and free to go. -/
theorem representation_of_reachable {p : Plant} (h : p.Reachable) :
    (p.root.name = "type" ∧ p.root.seed = .int) ∧
    (∀ leaf ∈ p.chain, leaf.name ≠ "type" ∧ leaf.name ≠ "") ∧
    (p.leaves.map Leaf.name).Nodup ∧
    (∀ leaf ∈ p.leaves,
      leaf.hash = KeyHash.hash leaf.name ∧
      (1 ≤ leaf.seed.code ∧ leaf.seed.code ≤ 5 ∨ 64 ≤ leaf.seed.code) ∧
      ∀ element ∈ leaf.elements, element.HasForm leaf.seed ∧
        ∃ v, element.decode leaf.seed = .ok v ∧ v.fits leaf.seed = true) ∧
    (∀ leaf ∈ p.chain,
      leaf.flags.contains .removing = false ∧ leaf.flags.contains .defunct = false) ∧
    p.root.flags.contains .removing = false ∧
    (p.root.flags.contains .defunct = false → p.root.elements.length = 1) ∧
    (p.root.flags.contains .defunct = true →
      p.chain = [] ∧ p.root.elements = [] ∧ p.root.hostWord = 0 ∧
      p.root.flags.contains .undeletable = false) := by
  have hp := h.wellFormed
  refine ⟨⟨hp.root_name, hp.root_seed⟩, ?_, hp.nodup, ?_, hp.chain_unmarked, hp.root_unmarked,
    hp.live_root, hp.freed⟩
  · intro leaf hleaf
    refine ⟨hp.chain_name leaf hleaf, ?_⟩
    intro hempty
    have hfilled := hp.chain_filled leaf hleaf
    rw [hempty] at hfilled
    cases hfilled
  · intro leaf hleaf
    have hwf := hp.leaf_wellFormed leaf hleaf
    refine ⟨hwf.hash_eq, ?_, ?_⟩
    · have hvalid := hwf.seed_valid
      rw [Seed.isValid, Bool.or_eq_true, Bool.and_eq_true] at hvalid
      rcases hvalid with ⟨hlow, hhigh⟩ | hpointer
      · exact .inl ⟨of_decide_eq_true hlow, of_decide_eq_true hhigh⟩
      · exact .inr (of_decide_eq_true hpointer)
    · obtain ⟨values, hfit, helements⟩ := hwf.holds
      intro element helement
      rw [helements] at helement
      obtain ⟨v, hv, rfl⟩ := List.mem_map.mp helement
      exact ⟨Element.hasForm_ofValue (hfit v hv), v, Element.decode_ofValue (hfit v hv), hfit v hv⟩

end

/-- An update and a removal that wait for a reader leave such a plant. -/
theorem representation_of_overlapped :
    let p := ((Plant.make 7 false).perform (.set "a" .int [.int 1])).plant
    let script : List Step := [.start (.set "a" .int [.int 2]), .start (.delete "a")]
    let q := (Overlap.run p (.getAll "a") script).plant
    q.Reachable ∧ (q.root.name = "type" ∧ q.root.seed = .int) ∧ (q.leaves.map Leaf.name).Nodup ∧
      q.root.flags.contains .removing = false := by
  intro p script q
  have hq : q.Reachable := .overlap (.call (.make 7 false) _) (by decide)
  obtain ⟨hroot, -, hnodup, -, -, hunmarked, -⟩ := representation_of_reachable hq
  exact ⟨hq, hroot, hnodup, hunmarked⟩

end Plant
end PlantStore
