import PlantStore.Overlap.Waiting
import PlantStore.Proofs.Mark
import PlantStore.Proofs.WellFormed

/-! # What is found under a key

Whatever leaf a key has stays what it is as long as it is there, unless a call about that very leaf
has been answered with success. A write replaces the elements and leaves the host's word alone, a
write of the host's word leaves the elements alone, a change of flags leaves both, and calls about
other leaves, leaves that go and leaves that come under other names are not noticed. In particular
a key without a leaf has none until a write makes it. -/

namespace PlantStore

variable [KeyHash]

namespace Plant

/-- Whatever leaf a key has is of some kind. -/
def FindsOnly (p : Plant) (key : String) (kind : Leaf → Prop) : Prop :=
  ∀ leaf, p.find? key = some leaf → kind leaf

section

variable {p : Plant} {key : String} {kind : Leaf → Prop}

theorem findsOnly_false : (p.FindsOnly key fun _ => False) ↔ p.find? key = none := by
  rw [FindsOnly, Option.eq_none_iff_forall_ne_some]

theorem findsOnly_of_isDefunct (hd : p.isDefunct = true) : p.FindsOnly key kind := by
  intro leaf hfind
  rw [find?_of_isDefunct hd] at hfind
  cases hfind

variable (h : p.FindsOnly key kind)

include h

/-! ### The forms of a change -/

theorem FindsOnly.alter (hs : p.Searchable) {name : String} {f : Leaf → Leaf}
    (hf : Leaf.IsContent f) (hkind : name = leafName key → ∀ leaf, kind leaf → kind (f leaf)) :
    (p.alter name f).FindsOnly key kind := by
  intro leaf hfind
  rw [hs.find?_alter name hf, Option.map_eq_some_iff] at hfind
  obtain ⟨old, hold, rfl⟩ := hfind
  have hname := (hs.find?_eq_some_iff.mp hold).2.2
  by_cases hsame : old.name = name
  · rw [Leaf.alter_of_name hsame]
    exact hkind (hsame.symm.trans hname) old (h old hold)
  · rw [Leaf.alter_of_ne hsame]
    exact h old hold

theorem FindsOnly.link (hs : p.Searchable) (hd : p.isDefunct = false) {leaf : Leaf}
    (hlinked : (p.link leaf).Searchable) (hne : leaf.name ≠ leafName key) :
    (p.link leaf).FindsOnly key kind := by
  intro found hfind
  rw [hs.find?_link hd hlinked, if_neg hne] at hfind
  exact h found hfind

theorem FindsOnly.ofSublist (hs : p.Searchable) {chain : List Leaf}
    (hsub : chain.Sublist p.chain) : ({ p with chain := chain } : Plant).FindsOnly key kind := by
  have hless : ({ p with chain := chain } : Plant).Searchable := hs.ofSublist hsub rfl rfl
  intro leaf hfind
  obtain ⟨hd, hmem, hname⟩ := hless.find?_eq_some_iff.mp hfind
  refine h leaf (hs.find?_eq_some_iff.mpr ⟨hd, ?_, hname⟩)
  rcases List.mem_cons.mp hmem with rfl | hchain
  · exact List.mem_cons_self
  · exact List.mem_cons_of_mem _ (hsub.subset hchain)

/-! ### Calls -/

theorem FindsOnly.updateNow (hp : p.WellFormed) {name : String} {seed : Seed} {values : List Value}
    (hkind : leafName name = leafName key → (p.updateNow name seed values).answer = .ok () →
      ∀ leaf elements, kind leaf → kind { leaf with elements := elements }) :
    (p.updateNow name seed values).plant.FindsOnly key kind := by
  rcases hp.updateNow_cases name seed values with ⟨e, -, hplant⟩ | ⟨-, elements, -, -, ha, hplant⟩
  · rw [hplant]
    exact h
  · rw [hplant]
    exact h.alter hp.toSearchable (Leaf.isContent_elements elements)
      fun hsame leaf hleaf => hkind hsame ha leaf elements hleaf

theorem FindsOnly.set (hp : p.WellFormed) {other : String} {seed : Seed} {values : List Value}
    (hnew : p.find? other = none → leafName other ≠ leafName key)
    (hkind : leafName other = leafName key → (p.set other seed values).answer = .ok () →
      ∀ leaf elements, kind leaf → kind { leaf with elements := elements }) :
    (p.set other seed values).plant.FindsOnly key kind := by
  have hafter := hp.set other seed values
  rcases hp.set_cases other seed values with ⟨e, -, hplant⟩ | ⟨-, elements, -, -, ha, hplant⟩ |
      ⟨elements, hfind, hd, -, -, hplant⟩
  · rw [hplant]
    exact h
  · rw [hplant]
    exact h.alter hp.toSearchable (Leaf.isContent_elements elements)
      fun hsame leaf hleaf => hkind hsame ha leaf elements hleaf
  · rw [hplant] at hafter ⊢
    have hlinked := hafter.toSearchable
    refine h.link hp.toSearchable hd hlinked ?_
    rw [Leaf.name_create, ← hlinked.leafName_of_link]
    exact hnew hfind

theorem FindsOnly.change (hp : p.WellFormed) {other : String} {f : Leaf → Leaf}
    (hf : Leaf.IsContent f)
    (hkind : leafName other = leafName key → (p.change other f).answer = .ok () →
      ∀ leaf, kind leaf → kind (f leaf)) : (p.change other f).plant.FindsOnly key kind := by
  rcases hp.change_cases other f with ⟨-, -, hplant⟩ | ⟨leaf, -, ha, hplant⟩
  · rw [hplant]
    exact h
  · rw [hplant]
    exact h.alter hp.toSearchable hf fun hsame => hkind hsame ha

theorem FindsOnly.removeAt (hp : p.WellFormed) (index : Nat) :
    (p.removeAt index).plant.FindsOnly key kind := by
  rcases p.removeAt_cases index with ⟨e, -, hplant⟩ | ⟨leaf, -, -, -, hplant⟩
  · rw [hplant]
    exact h
  · rw [hplant]
    exact h.ofSublist hp.toSearchable (List.eraseIdx_sublist ..)

theorem FindsOnly.delete (hp : p.WellFormed) (other : String) :
    (p.delete other).plant.FindsOnly key kind := by
  rw [Plant.delete]
  split
  · rw [reportDeleted_plant]
    exact h.removeAt hp _
  · exact h
  · exact h

theorem FindsOnly.deleteAfterWait (hp : p.WellFormed) (other : String) :
    (p.deleteAfterWait other).plant.FindsOnly key kind := by
  rw [Plant.deleteAfterWait]
  split
  · rw [reportDeleted_plant]
    exact h.removeAt hp _
  · exact h

theorem FindsOnly.freeFrom (hp : p.WellFormed) (start : Nat) :
    (p.freeFrom start).plant.FindsOnly key kind := by
  have hswept : (p.sweep start).FindsOnly key kind :=
    h.ofSublist hp.toSearchable (p.sweep_sublist start)
  rcases p.freeFrom_cases start with ⟨-, -, hplant⟩ | ⟨-, -, -, hplant⟩ | ⟨-, -, -, hplant⟩
  · rw [hplant]
    exact hswept
  · rw [hplant]
    exact hswept
  · rw [hplant]
    exact findsOnly_of_isDefunct (isDefunct_bury _)

theorem FindsOnly.freeAfterWait (hp : p.WellFormed) :
    p.freeAfterWait.plant.FindsOnly key kind := by
  rcases p.freeAfterWait_cases with ⟨-, -, hplant⟩ | ⟨-, hfree⟩
  · rw [hplant]
    exact h
  · rw [hfree]
    exact h.freeFrom hp 0

theorem FindsOnly.free (hp : p.WellFormed) : p.free.plant.FindsOnly key kind := by
  rw [Plant.free]
  split
  · exact h
  · exact h.freeAfterWait hp

/-- A call that has not been answered with success as a write of the host's word of a leaf leaves
the word of the leaf as it is. -/
theorem FindsOnly.perform (hp : p.WellFormed) (hhas : p.has key = true)
    (helements : ∀ leaf elements, kind leaf → kind { leaf with elements := elements })
    (hflags : ∀ leaf flags, kind leaf →
      kind { leaf with flags := leaf.flags.replaceVisible flags })
    {call : Call} (hword : ∀ other word, call = .setHostWord other word →
      leafName other = leafName key → (p.perform call).answer ≠ .unit (.ok ())) :
    (p.perform call).plant.FindsOnly key kind := by
  cases call with
  | set other seed values =>
      refine h.set hp (fun hnone hsame => ?_) fun _ _ => helements
      -- The leaf of the key is there, so the write is an update of it.
      rw [← hp.find?_leafName, hsame, hp.find?_leafName, ← has_eq_false_iff, hhas] at hnone
      cases hnone
  | setFlags other flags =>
      exact h.change hp (Leaf.isContent_flags flags) fun _ _ leaf => hflags leaf flags
  | setHostWord other word =>
      exact h.change hp (Leaf.isContent_hostWord word) fun hsame ha =>
        absurd (congrArg Answer.unit ha) (hword other word rfl hsame)
  | delete other => exact h.delete hp other
  | free => exact h.free hp
  | _ => exact h

end

end Plant

/-- At its turn a waiting call leaves what is in a leaf as it is, unless it is a write of the leaf
that is answered with success. -/
theorem Plant.FindsOnly.finish (seen : Plant) {p : Plant} {key : String} {kind : Leaf → Prop}
    (h : p.FindsOnly key kind) (hp : p.WellFormed)
    (hflags : ∀ leaf flags, kind leaf →
      kind { leaf with flags := leaf.flags.replaceVisible flags })
    {w : Waiting} (hnew : ∀ other seed values, w = .inserting other seed values →
      leafName other ≠ leafName key)
    (hset : ∀ name seed values, w = .updating name seed values → leafName name = leafName key →
      (w.finish seen p).1 = .unit (.ok ()) →
      ∀ leaf elements, kind leaf → kind { leaf with elements := elements }) :
    (w.finish seen p).2.FindsOnly key kind := by
  have hunmark : p.unmark = p := p.unmark_of_not hp.root_unmarked
  cases w with
  | updating name seed values =>
      exact h.updateNow hp fun hsame ha =>
        hset name seed values rfl hsame (congrArg Answer.unit ha)
  | flagging name flags =>
      exact h.change hp (Leaf.isContent_flags flags) fun _ _ leaf => hflags leaf flags
  | inserting other seed values =>
      have hne := hnew other seed values rfl
      exact h.set hp (fun _ => hne) fun hsame => absurd hsame hne
  | removing other index =>
      show (p.reportDeleted other (p.unmark.removeAt index)).plant.FindsOnly key kind
      rw [Plant.reportDeleted_plant, hunmark]
      exact h.removeAt hp index
  | deleting other => exact h.deleteAfterWait hp other
  | sweeping start =>
      show (p.unmark.freeFrom start).plant.FindsOnly key kind
      rw [hunmark]
      exact h.freeFrom hp start
  | freeing => exact h.freeAfterWait hp
  | _ => exact h

/-- No waiting call but a write of the key brings a leaf of the key about. -/
theorem Waiting.absent_finish (seen : Plant) {p : Plant} (hp : p.WellFormed) {w : Waiting}
    {key : String} (hnone : p.find? key = none)
    (hw : ∀ other seed values, w = .inserting other seed values →
      leafName other ≠ leafName key) :
    (w.finish seen p).2.find? key = none :=
  Plant.findsOnly_false.mp ((Plant.findsOnly_false.mpr hnone).finish seen hp
    (fun _ _ => False.elim) hw fun _ _ _ _ _ _ _ _ => False.elim)

end PlantStore
