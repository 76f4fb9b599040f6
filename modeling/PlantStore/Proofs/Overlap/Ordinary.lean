import Mathlib.Data.List.TakeWhile
import PlantStore.Proofs.Overlap.Admissible
import PlantStore.Proofs.WellFormed

/-! # What a call that need not wait can do

A call that is answered at once while others wait has found nothing taken that it needs. So it
changes no flags of a leaf whose writer mutex is held, it links no leaf while somebody has the
rights, and it removes none while there are readers. `Overlap.Moves` lists what is left. -/

namespace PlantStore

/-- A sweep that goes past every leaf takes none out. -/
theorem Plant.sweep_of_passed {p : Plant}
    (h : p.chain.length ≤ (p.chain.takeWhile Leaf.isUndeletable).length) : p.sweep 0 = p := by
  have hself : p.chain.takeWhile Leaf.isUndeletable = p.chain :=
    (List.takeWhile_prefix _).eq_of_length_le h
  have hfilter : p.chain.filter Leaf.isUndeletable = p.chain :=
    List.filter_eq_self.mpr (List.takeWhile_eq_self_iff.mp hself)
  rw [sweep, List.take_zero, List.drop_zero, List.nil_append, hfilter]

namespace Overlap

variable [KeyHash]

/-- What a call that is answered at once can make of the plant of an overlap. -/
inductive Moves (o : Overlap) : Plant → Prop
  | stays : Moves o o.plant
  | writes (name : String) {f : Leaf → Leaf} (hf : Leaf.IsContent f)
    (hflags : ∀ leaf, (f leaf).flags = leaf.flags) : Moves o (o.plant.alter name f)
  | flags {name : String} {f : Leaf → Leaf} (hf : Leaf.IsContent f)
    (hfree : o.writerTaken name = false) : Moves o (o.plant.alter name f)
  | links {leaf : Leaf} (hs : (o.plant.link leaf).Searchable) (hd : o.plant.isDefunct = false)
    (hfree : o.rightsTaken = false) : Moves o (o.plant.link leaf)
  | removes (q : Plant) (hreader : o.stopped.isReader = false) (hfree : o.rightsTaken = false) :
    Moves o q

section

variable {o : Overlap} (hwf : o.plant.WellFormed)

include hwf

theorem moves_set {key : String} {seed : Seed} {values : List Value}
    (h : o.waitSet? key seed values = none) : o.Moves (o.plant.set key seed values).plant := by
  have hafter := hwf.set key seed values
  rcases hwf.set_cases key seed values with ⟨e, -, hp⟩ | ⟨leaf, elements, -, -, -, hp⟩ |
      ⟨elements, hfind, hd, hencode, -, hp⟩
  · rw [hp]
    exact .stays
  · rw [hp]
    exact .writes (leafName key) (Leaf.isContent_elements elements) fun _ => rfl
  · -- Only a write that makes a leaf needs the rights.
    rw [hp] at hafter
    rw [hp]
    have hvalid := (Element.encodeAll_eq_ok_iff.mp hencode).1
    rw [waitSet?, hfind, hd, hvalid, Bool.not_false, Bool.true_and, Bool.true_and] at h
    refine .links hafter.toSearchable hd ?_
    cases hr : o.rightsTaken with
    | false => rfl
    | true =>
        rw [hr] at h
        cases h

theorem moves_setFlags {key : String} {flags : LeafFlags} (h : o.waitFlags? key flags = none) :
    o.Moves (o.plant.setFlags key flags).plant := by
  rw [Plant.setFlags]
  rcases hwf.change_cases key
    (fun leaf => { leaf with flags := leaf.flags.replaceVisible flags }) with
      ⟨-, -, hp⟩ | ⟨leaf, hfind, -, hp⟩
  · rw [hp]
    exact .stays
  · rw [hp]
    refine .flags (Leaf.isContent_flags flags) ?_
    rw [waitFlags?, hfind] at h
    rw [← (hwf.find?_eq_some_iff.mp hfind).2.2]
    cases hw : o.writerTaken leaf.name with
    | false => rfl
    | true =>
        simp only [hw] at h
        cases h

theorem moves_setHostWord (key : String) (word : UInt64) :
    o.Moves (o.plant.setHostWord key word).plant := by
  rw [Plant.setHostWord]
  rcases hwf.change_cases key (fun leaf => { leaf with hostWord := word }) with
      ⟨-, -, hp⟩ | ⟨leaf, -, -, hp⟩
  · rw [hp]
    exact .stays
  · rw [hp]
    exact .writes (leafName key) (Leaf.isContent_hostWord word) fun _ => rfl

theorem moves_delete {key : String} (h : o.waitDelete? key = none) :
    o.Moves (o.plant.delete key).plant := by
  rcases hwf.delete_cases key with ⟨e, -, hp⟩ | ⟨leaf, hfind, hroot, hu, -, hp⟩
  · rw [hp]
    exact .stays
  · obtain ⟨hd, hmem, hname⟩ := hwf.find?_eq_some_iff.mp hfind
    have hchain : leaf ∈ o.plant.chain := by
      rcases List.mem_cons.mp hmem with rfl | hchain
      · exact absurd (hname.symm.trans hwf.root_name) hroot
      · exact hchain
    obtain ⟨index, hindex⟩ := List.getElem?_of_mem hchain
    have hplace : o.plant.place? key = some (.link index) :=
      hwf.place?_eq_link_iff.mpr ⟨hd, leaf, hindex, hname⟩
    -- The leaf may go, so only the rights and the readers can have kept the call waiting.
    have hnot : (some leaf).any Leaf.isUndeletable = false := hu
    simp only [waitDelete?, hplace, hindex, hnot, if_neg Bool.false_ne_true] at h
    cases hr : o.rightsTaken with
    | true =>
        rw [hr] at h
        cases h
    | false =>
        rw [hr, if_neg Bool.false_ne_true] at h
        cases hreader : o.stopped.isReader with
        | true =>
            rw [hreader] at h
            cases h
        | false => exact .removes _ hreader hr

omit hwf in
theorem moves_free (h : o.waitFree? = none) : o.Moves o.plant.free.plant := by
  rcases o.plant.free_cases with ⟨-, -, hp⟩ | ⟨-, -, -, hp⟩ | ⟨hu, hd, hf⟩
  · rw [hp]
    exact .stays
  · rw [hp]
    exact .stays
  · rw [waitFree?, hu, hd, if_neg Bool.false_ne_true] at h
    cases hr : o.rightsTaken with
    | true =>
        rw [hr] at h
        cases h
    | false =>
        cases hreader : o.stopped.isReader with
        | false => exact .removes _ hreader hr
        | true =>
            -- A reader is there, so the sweep finds only undeletable leaves and keeps them.
            rw [hr, hreader, if_neg Bool.false_ne_true, if_neg Bool.false_ne_true] at h
            have hremoves : (decide ((o.plant.chain.takeWhile Leaf.isUndeletable).length <
                o.plant.chain.length) || o.plant.chain.isEmpty) = false := by
              apply Bool.eq_false_iff.mpr
              intro hremoves
              dsimp only at h
              rw [hremoves] at h
              cases h
            obtain ⟨hpassed, hfilled⟩ := Bool.or_eq_false_iff.mp hremoves
            have hsweep : o.plant.sweep 0 = o.plant :=
              Plant.sweep_of_passed (Nat.le_of_not_lt (of_decide_eq_false hpassed))
            rw [hf]
            rcases o.plant.freeFrom_cases 0 with ⟨-, -, hp⟩ | ⟨-, hu', -, -⟩ | ⟨hempty, -, -, -⟩
            · rw [hp, hsweep]
              exact .stays
            · rw [hu] at hu'
              cases hu'
            · rw [hsweep] at hempty
              rw [hempty] at hfilled
              cases hfilled

/-- A call that need not wait makes one of these moves. -/
theorem moves_answerNow {call : Call} (h : o.wait? call = none) :
    o.Moves (o.answerNow call).plant := by
  cases call with
  | set key seed values => exact moves_set hwf h
  | setFlags key flags => exact moves_setFlags hwf h
  | setHostWord key word =>
      rw [answerNow]
      split
      · exact .stays
      · exact moves_setHostWord hwf key word
  | hostWordOf key =>
      rw [answerNow]
      split <;> exact .stays
  | delete key => exact moves_delete hwf h
  | free => exact moves_free h
  | _ => exact .stays

theorem wellFormed_answerNow (call : Call) : (o.answerNow call).plant.WellFormed := by
  cases call with
  | setHostWord key word =>
      rw [answerNow]
      split
      · exact hwf
      · exact hwf.perform _
  | hostWordOf key =>
      rw [answerNow]
      split
      · exact hwf
      · exact hwf.perform _
  | _ => exact hwf.perform _

end

end Overlap
end PlantStore
