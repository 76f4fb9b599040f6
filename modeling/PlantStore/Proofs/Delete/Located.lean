import PlantStore.Proofs.Disjoint.Edit
import PlantStore.Proofs.Free.Filter
import PlantStore.Proofs.Verdict

/-! # A removal finds its leaf

To take a leaf out, a removal has to know what stands before it. It walks along the chain and
stops at its leaf, which it knows in one of two ways: it has stood there since it looked its key
up, or it has waited and looks for the key again. Then it puts what is behind the leaf behind the
leaf before it. Both walks stop at the same place, wherever in the chain that is, because no two
leaves have one name and none has the root's; and the chain that is left is the old one without
the one leaf. -/

namespace PlantStore

/-! ### Places in a chain -/

/-- The index of what stands right behind a place. -/
def Place.next : Place → Nat
  | root => 0
  | link index => index + 1

/-- The place right before an index of the chain. -/
def Place.before : Nat → Place
  | 0 => root
  | index + 1 => link index

theorem Place.next_before (index : Nat) : (before index).next = index := by
  cases index <;> rfl

theorem Place.before_next (place : Place) : before place.next = place := by
  cases place <;> rfl

namespace Plant

/-! ### Walking -/

/-- Goes along leaves that stand behind `pred`, up to the first one that is hit. The answer is the
place before that leaf, and its own. -/
def walkTo (hit : Nat → Leaf → Bool) (pred : Place) : List Leaf → Option (Place × Nat)
  | [] => none
  | leaf :: rest =>
    if hit pred.next leaf then some (pred, pred.next) else walkTo hit (.link pred.next) rest

/-- Looks for a leaf of the chain that has been found before. -/
def locateAt (p : Plant) (index : Nat) : Option (Place × Nat) :=
  walkTo (fun place _ => place == index) .root p.chain

/-- Looks for the leaf of a key in the chain. -/
def locate [KeyHash] (p : Plant) (key : String) : Option (Place × Nat) :=
  walkTo (fun _ leaf => leaf.answersTo key (KeyHash.hash key)) .root p.chain

/-- A walk stops at the first leaf that is hit. -/
theorem walkTo_eq_some {hit : Nat → Leaf → Bool} {pred : Place} {leaves : List Leaf} {index : Nat}
    {leaf : Leaf} (hleaf : leaves[index]? = some leaf) (hhit : hit (pred.next + index) leaf = true)
    (hfirst : ∀ i < index, ∀ other, leaves[i]? = some other → hit (pred.next + i) other = false) :
    walkTo hit pred leaves = some (.before (pred.next + index), pred.next + index) := by
  induction leaves generalizing pred index with
  | nil => cases hleaf
  | cons first rest ih =>
      rw [walkTo]
      cases index with
      | zero =>
          obtain rfl : first = leaf := Option.some.inj hleaf
          rw [Nat.add_zero] at hhit ⊢
          rw [if_pos hhit, Place.before_next]
      | succ index =>
          have hpast : hit pred.next first = false := hfirst 0 (Nat.zero_lt_succ index) first rfl
          have hshift : ∀ i, (Place.link pred.next).next + i = pred.next + (i + 1) := fun i => by
            rw [Place.next, Nat.add_right_comm, Nat.add_assoc]
          rw [if_neg (Bool.eq_false_iff.mp hpast), ih hleaf, hshift]
          · rw [hshift]
            exact hhit
          · intro i hi other hother
            rw [hshift]
            exact hfirst (i + 1) (Nat.succ_lt_succ hi) other hother

theorem walkTo_root {hit : Nat → Leaf → Bool} {leaves : List Leaf} {index : Nat} {leaf : Leaf}
    (hleaf : leaves[index]? = some leaf) (hhit : hit index leaf = true)
    (hfirst : ∀ i < index, ∀ other, leaves[i]? = some other → hit i other = false) :
    walkTo hit .root leaves = some (.before index, index) := by
  have hstart : ∀ i, Place.root.next + i = i := Nat.zero_add
  have hstop := @walkTo_eq_some hit .root leaves index leaf hleaf
  simp only [hstart] at hstop
  exact hstop hhit hfirst

/-- A walk that hits nothing comes to the end. -/
theorem walkTo_eq_none {hit : Nat → Leaf → Bool} {pred : Place} {leaves : List Leaf}
    (hnone : ∀ place, ∀ leaf ∈ leaves, hit place leaf = false) :
    walkTo hit pred leaves = none := by
  induction leaves generalizing pred with
  | nil => rfl
  | cons first rest ih =>
      rw [walkTo, if_neg (Bool.eq_false_iff.mp (hnone _ first List.mem_cons_self))]
      exact ih fun place leaf hleaf => hnone place leaf (List.mem_cons_of_mem _ hleaf)

/-- A leaf that has been found before is found where it stands. -/
theorem locateAt_eq_some {p : Plant} {index : Nat} {leaf : Leaf}
    (hleaf : p.chain[index]? = some leaf) :
    p.locateAt index = some (.before index, index) :=
  walkTo_root hleaf BEq.rfl fun _ hi _ _ => beq_false_of_ne (Nat.ne_of_lt hi)

/-! ### Unlinking -/

/-- Puts what is behind the target behind the place before it, unless the target has been flagged
in the meantime. -/
def unlink (p : Plant) (pred : Place) (target : Nat) : Outcome (Result Unit) :=
  match p.chain[target]? with
  | none => ⟨.error .noSuchLeaf, p, []⟩
  | some leaf =>
    if leaf.isUndeletable then ⟨.error .undeletable, p, []⟩
    else ⟨.ok (), { p with chain := p.chain.take pred.next ++ p.chain.drop (target + 1) },
      [.unlinked leaf.name]⟩

/-- Goes on with a removal whose walk is over. -/
def removeFound (p : Plant) (key : String) : Option (Place × Nat) → Outcome (Result Unit)
  | none => ⟨.error .noSuchLeaf, p, []⟩
  | some (pred, target) =>
    if (p.chain[target]?).any Leaf.isUndeletable then ⟨.error .undeletable, p, []⟩
    else p.reportDeleted key (p.unlink pred target)

/-- Linking past a leaf takes it out. -/
theorem unlink_eq_removeAt (p : Plant) (index : Nat) :
    p.unlink (.before index) index = p.removeAt index := by
  have hpast : p.chain.take (Place.before index).next ++ p.chain.drop (index + 1) =
      p.chain.eraseIdx index := by
    rw [Place.next_before, List.eraseIdx_eq_take_drop_succ]
  rw [unlink, hpast]
  rfl

/-- The flag need not be looked at before the leaf is unlinked, where it is looked at again. -/
theorem removeFound_before (p : Plant) (key : String) (index : Nat) :
    p.removeFound key (some (.before index, index)) =
      p.reportDeleted key (p.removeAt index) := by
  rw [removeFound, unlink_eq_removeAt]
  cases hleaf : p.chain[index]? with
  | none => rfl
  | some leaf =>
      rw [Option.any_some]
      cases hu : leaf.isUndeletable with
      | false => rfl
      | true =>
          have hrefused : p.removeAt index = ⟨.error .undeletable, p, []⟩ := by
            rw [removeAt, hleaf]
            exact if_pos hu
          rw [hrefused]
          rfl

section

variable [KeyHash]

/-- A removal that walks. It looks its key up and looks at the flag of the leaf; then it takes the
rights and walks to the leaf, by the place if it has stood there all the time and by the key
otherwise; and it looks at the flag again before it unlinks the leaf, and once more while it
does. -/
def deleteByWalk (p : Plant) (retained : Bool) (key : String) : Outcome (Result Unit) :=
  match p.place? key with
  | some (.link index) =>
    if (p.chain[index]?).any Leaf.isUndeletable then ⟨.error .undeletable, p, []⟩
    else p.removeFound key (if retained then p.locateAt index else p.locate key)
  | some .root | none => ⟨.error .noSuchLeaf, p, []⟩

/-! ### The two walks -/

/-- A removal that has waited goes on by walking to its key. -/
theorem deleteAfterWait_eq_removeFound (p : Plant) (key : String) :
    p.deleteAfterWait key = p.removeFound key (p.locate key) := by
  rw [deleteAfterWait, chainIndex?]
  cases hindex : p.chain.findIdx? (·.answersTo key (KeyHash.hash key)) with
  | none =>
      have hnone := List.findIdx?_eq_none_iff.mp hindex
      rw [locate, walkTo_eq_none fun _ => hnone]
      rfl
  | some index =>
      obtain ⟨hlt, hhit, hfirst⟩ := List.findIdx?_eq_some_iff_getElem.mp hindex
      have hlocate : p.locate key = some (.before index, index) := by
        refine walkTo_root (List.getElem?_eq_getElem hlt) hhit fun i hi other hother => ?_
        obtain ⟨_, rfl⟩ := List.getElem?_eq_some_iff.mp hother
        exact Bool.eq_false_iff.mpr (hfirst i hi)
      rw [hlocate, removeFound_before]

section

variable {p : Plant} (h : p.Searchable)

include h

/-- The leaf of a name is found where it stands, since no other leaf has the name. -/
theorem Searchable.locate_eq_some {index : Nat} {leaf : Leaf}
    (hleaf : p.chain[index]? = some leaf) :
    p.locate leaf.name = some (.before index, index) := by
  have hanswers : ∀ other ∈ p.chain,
      other.answersTo leaf.name (KeyHash.hash leaf.name) = (other.name == leaf.name) :=
    fun other hother =>
      Leaf.answersTo_eq (h.hash_eq other (List.mem_cons_of_mem _ hother)) leaf.name
  have hself := (hanswers leaf (List.mem_of_getElem? hleaf)).trans BEq.rfl
  refine walkTo_root hleaf hself fun i hi other hother => ?_
  rw [hanswers other (List.mem_of_getElem? hother)]
  apply beq_false_of_ne
  intro hname
  obtain ⟨hlt, rfl⟩ := List.getElem?_eq_some_iff.mp hleaf
  obtain ⟨hlt', rfl⟩ := List.getElem?_eq_some_iff.mp hother
  exact absurd (h.index_eq_of_name hlt' hlt hname) (Nat.ne_of_lt hi)

/-- The walks do not come upon the root. -/
theorem Searchable.locate_eq_none {key : String}
    (hkey : ∀ leaf ∈ p.chain, leaf.name ≠ key) : p.locate key = none := by
  apply walkTo_eq_none
  intro _ leaf hleaf
  rw [Leaf.answersTo_eq (h.hash_eq leaf (List.mem_cons_of_mem _ hleaf))]
  exact beq_false_of_ne (hkey leaf hleaf)

/-- Where a key has its leaf, both walks stop. -/
theorem Searchable.locate_of_place? {key : String} {index : Nat}
    (hplace : p.place? key = some (.link index)) :
    p.locateAt index = some (.before index, index) ∧
      p.locate key = some (.before index, index) := by
  obtain ⟨-, leaf, hleaf, hname⟩ := h.place?_eq_link_iff.mp hplace
  have hself : leaf.name = key := by
    rw [hname]
    exact leafName_eq_self (hname ▸ h.chain_name leaf (List.mem_of_getElem? hleaf))
  exact ⟨locateAt_eq_some hleaf, hself ▸ h.locate_eq_some hleaf⟩

/-- A removal is a removal that walks, whichever way it goes. -/
theorem Searchable.delete_eq_deleteByWalk (retained : Bool) (key : String) :
    p.delete key = p.deleteByWalk retained key := by
  rw [delete, deleteByWalk]
  cases hplace : p.place? key with
  | none => rfl
  | some place =>
      cases place with
      | root => rfl
      | link index =>
          obtain ⟨hat, hkey⟩ := h.locate_of_place? hplace
          have hfound : (if retained then p.locateAt index else p.locate key) =
              some (.before index, index) := by
            rw [hat, hkey, ite_self]
          dsimp only
          rw [hfound, ← removeFound_before, removeFound]
          cases (p.chain[index]?).any Leaf.isUndeletable <;> rfl

end

/-- Looking for the key again comes to what looking for it once comes to, in every well-formed
plant. -/
theorem WellFormed.deleteAfterWait_eq {p : Plant} (h : p.WellFormed) (key : String) :
    p.deleteAfterWait key = p.delete key := by
  have hnothing (hnone : ∀ leaf ∈ p.chain, leaf.name ≠ key) :
      p.deleteAfterWait key = ⟨.error .noSuchLeaf, p, []⟩ := by
    rw [deleteAfterWait_eq_removeFound, h.locate_eq_none hnone]
    rfl
  cases hd : p.isDefunct with
  | true =>
      have hplace : p.place? key = none := if_pos hd
      have hnone : ∀ leaf ∈ p.chain, leaf.name ≠ key := by
        rw [(h.freed hd).1]
        exact fun leaf hleaf => by cases hleaf
      rw [hnothing hnone, Plant.delete, hplace]
  | false =>
      by_cases hkey : leafName key = rootKey
      -- The root has two names, but a leaf of the chain has neither, so a walk along it ends
      -- nowhere.
      · have hplace := h.place?_eq_root_iff.mpr ⟨hd, hkey⟩
        have hnone : ∀ leaf ∈ p.chain, leaf.name ≠ key := by
          intro leaf hleaf hname
          have hself := h.name_filled (List.mem_cons_of_mem _ hleaf)
          rw [hname, hkey] at hself
          exact h.chain_name leaf hleaf (hname.trans hself.symm)
        rw [hnothing hnone, Plant.delete, hplace]
      · exact h.deleteAfterWait_eq_delete hd hkey

end

/-! ### What a removal does -/

/-- The rules for a removal, in the order in which they are tried. -/
def deleteRules [KeyHash] (p : Plant) (key : String) : List Rule :=
  [⟨p.isDefunct, .noSuchLeaf⟩,
    ⟨!p.has key, .noSuchLeaf⟩,
    ⟨key == "" || key == rootKey, .noSuchLeaf⟩,
    ⟨(p.flagsOf key).contains .undeletable, .undeletable⟩]

/-- A removal is answered by the first rule that it breaks, and then nothing has changed; if it
breaks none, then the leaf of its key is gone from the chain, and all else is as it was. -/
structure Deletes [KeyHash] (p : Plant) (key : String) (answer : Result Unit) (after : Plant) :
    Prop where
  judged : answer = Rule.judge (p.deleteRules key)
  refused : ∀ e, answer = .error e → after = p
  removed : answer = .ok () → ∃ front target back,
    p.chain = front ++ target :: back ∧ target.name = key ∧
      after = { p with chain := front ++ back }

variable [KeyHash]

theorem Searchable.answer_delete {p : Plant} (h : p.Searchable) (key : String) :
    (p.delete key).answer = Rule.judge (p.deleteRules key) := by
  rw [deleteRules]
  cases hd : p.isDefunct with
  | true =>
      have hplace : p.place? key = none := if_pos hd
      rw [Rule.judge_cons_of_broken rfl, delete, hplace]
  | false =>
      rw [Rule.judge_cons_of_kept rfl]
      cases hfind : p.find? key with
      | none =>
          rw [(h.delete_of_none (.inr hfind)).1, has_eq_false_iff.mpr hfind,
            Rule.judge_cons_of_broken rfl]
      | some leaf =>
          rw [has_eq_true_iff.mpr ⟨leaf, hfind⟩, Rule.judge_cons_of_kept rfl]
          by_cases hkey : leafName key = rootKey
          · have hroot : (key == "" || key == rootKey) = true := by
              rw [Bool.or_eq_true, beq_iff_eq, beq_iff_eq]
              exact leafName_eq_rootKey_iff.mp hkey
            rw [(h.delete_of_none (.inl hkey)).1, Rule.judge_cons_of_broken hroot]
          · have hroot : (key == "" || key == rootKey) = false := by
              rw [Bool.eq_false_iff, ne_eq, Bool.or_eq_true, beq_iff_eq, beq_iff_eq]
              exact fun hor => hkey (leafName_eq_rootKey_iff.mpr hor)
            have hflags : (p.flagsOf key).contains .undeletable = leaf.isUndeletable := by
              rw [flagsOf, askOr_of_find?_some hfind]
              exact leaf.visible_undeletable
            rw [Rule.judge_cons_of_kept hroot, hflags]
            rcases h.delete_of_find? hfind hkey with ⟨hu, ha, -⟩ | ⟨hu, ha, -⟩
            · rw [ha, hu, Rule.judge_cons_of_broken rfl]
            · rw [ha, hu, Rule.judge_cons_of_kept rfl]
              rfl

/-- A removal takes exactly its leaf out. -/
theorem Searchable.deletes {p : Plant} (h : p.Searchable) (key : String) :
    p.Deletes key (p.delete key).answer (p.delete key).plant := by
  refine ⟨h.answer_delete key, ?_, ?_⟩
  · intro e he
    rcases h.delete_cases key with ⟨-, -, hp⟩ | ⟨-, -, -, -, ha, -⟩
    · exact hp
    · rw [ha] at he
      cases he
  · intro hok
    rw [delete] at hok ⊢
    cases hplace : p.place? key with
    | none =>
        rw [hplace] at hok
        cases hok
    | some place =>
        rw [hplace] at hok
        cases place with
        | root => cases hok
        | link index =>
            simp only [reportDeleted_answer, reportDeleted_plant] at hok ⊢
            obtain ⟨-, leaf, hleaf, hname⟩ := h.place?_eq_link_iff.mp hplace
            have hself : leafName key = key :=
              leafName_eq_self (hname ▸ h.chain_name leaf (List.mem_of_getElem? hleaf))
            obtain ⟨hdrop, -⟩ := split_chain hleaf
            rcases p.removeAt_cases index with ⟨e, ha, -⟩ | ⟨-, -, -, -, hp⟩
            · rw [hok] at ha
              cases ha
            · refine ⟨p.chain.take index, leaf, p.chain.drop (index + 1), ?_,
                hname.trans hself, ?_⟩
              · rw [← hdrop, List.take_append_drop]
              · rw [hp, List.eraseIdx_eq_take_drop_succ]

end Plant
end PlantStore
