import PlantStore.Proofs.Freed.Rest
import PlantStore.Proofs.Reserved.Masked

/-! # What callers see of the flags

Callers see their own half of the flags of a leaf and nothing of the store's. What they see is what
has been asked for last: a turn of any call leaves it alone, unless it is that of a change of these
flags, or takes the leaf away. -/

namespace PlantStore

/-- The store's half of the flags of a leaf. -/
def Leaf.marks (leaf : Leaf) : UInt32 := leaf.flags.bits &&& LeafFlags.reserved.bits

/-- One of the calls asks for flags of the leaf of a name. -/
def Call.AskedAmong (calls : List Call) (name : String) (flags : LeafFlags) : Prop :=
  ∃ key, .setFlags key flags ∈ calls ∧ leafName key = name

variable [KeyHash]

namespace Plant

/-! ### The two halves -/

/-- No question about flags shows the store's half. -/
theorem reserved_flagsOf (p : Plant) (key : String) :
    (p.flagsOf key).bits &&& LeafFlags.reserved.bits = 0 := by
  rw [flagsOf, askOr]
  split
  · exact LeafFlags.reserved_visible _
  · exact UInt32.zero_and

/-- A change of flags leaves the store's half of all flags as it was. -/
theorem marks_setFlags (p : Plant) (key : String) (flags : LeafFlags) :
    (p.setFlags key flags).plant.leaves.map Leaf.marks = p.leaves.map Leaf.marks := by
  let f : Leaf → Leaf := fun leaf => { leaf with flags := leaf.flags.replaceVisible flags }
  -- Only the callers' half is replaced, whichever leaf it is.
  have hf : ∀ leaf, (f leaf).marks = leaf.marks := fun leaf =>
    LeafFlags.reserved_replaceVisible leaf.flags flags
  have hmodify : (p.modify key f).leaves.map Leaf.marks = p.leaves.map Leaf.marks := by
    rw [modify]
    cases p.place? key with
    | none => rfl
    | some place =>
        cases place with
        | root => exact congrArg (· :: p.chain.map Leaf.marks) (hf p.root)
        | link index =>
            refine congrArg (p.root.marks :: ·) (List.ext_getElem (by simp [modifyAt]) ?_)
            intro i _ _
            simp only [modifyAt, List.getElem_map, List.getElem_modify]
            split
            · exact hf _
            · rfl
  show (p.change key f).plant.leaves.map Leaf.marks = _
  rw [change]
  split
  · exact hmodify
  · rfl

/-- A change of flags is granted exactly if there is a leaf, whatever it asks for. -/
theorem answer_setFlags (p : Plant) (key : String) (flags : LeafFlags) :
    (p.setFlags key flags).answer =
      if p.has key then .ok () else .error .noSuchLeaf := by
  rw [setFlags, change]
  split <;> rfl

/-! ### From one plant to the next -/

/-- The leaf of a key is still there, and callers see the same flags. -/
structure Retains (q r : Plant) (key : String) : Prop where
  has : r.has key = true
  flagsOf : r.flagsOf key = q.flagsOf key

/-- A change of flags has been granted. -/
structure Grants (q r : Plant) (key : String) (flags : LeafFlags) : Prop where
  answer : (q.setFlags key flags).answer = .ok ()
  plant : r.unmark = (q.setFlags key flags).plant.unmark

/-- The leaf of a key has gone, by a removal at its place or with a `free`. -/
structure Sheds (q r : Plant) (key : String) : Prop where
  has : r.has key = false
  plant : (∃ index, q.place? key = some (.link index) ∧
      r.unmark = (q.removeAt index).plant.unmark) ∨
    ∃ start, r.unmark = (q.freeFrom start).plant.unmark

/-- What makes an end of the flags that callers see of a leaf: a change of them that is granted to
one of the calls, or the end of the leaf. -/
inductive Ends (calls : List Call) (q r : Plant) (key : String) : Prop
  | grants {other : String} {flags : LeafFlags} (hcall : .setFlags other flags ∈ calls)
    (hname : leafName other = leafName key) (h : q.Grants r other flags)
  | sheds (h : q.Sheds r key)

section

variable {q r : Plant} {key : String}

theorem retains_of_find? (hhas : q.has key = true) (hsame : r.find? key = q.find? key) :
    q.Retains r key where
  has := by rwa [Plant.has, hsame]
  flagsOf := by rw [Plant.flagsOf, Plant.flagsOf, askOr, askOr, hsame]

theorem Retains.of_unmark (h : q.unmark.Retains r.unmark key) : q.Retains r key := by
  obtain ⟨hhas, hflags⟩ := h
  rw [has_unmark] at hhas
  rw [flagsOf_unmark, flagsOf_unmark] at hflags
  exact ⟨hhas, hflags⟩

theorem Ends.of_unmark {calls : List Call} (h : Ends calls q.unmark r.unmark key) :
    Ends calls q r key := by
  cases h with
  | grants hcall hname h =>
      obtain ⟨hanswer, hplant⟩ := h
      rw [setFlags_unmark] at hanswer hplant
      rw [unmark_unmark] at hplant
      exact .grants hcall hname ⟨hanswer, hplant.trans (unmark_unmark _)⟩
  | sheds h =>
      obtain ⟨hhas, hplant⟩ := h
      rw [has_unmark] at hhas
      refine .sheds ⟨hhas, ?_⟩
      rw [unmark_unmark] at hplant
      rcases hplant with ⟨index, hplace, hplant⟩ | ⟨start, hplant⟩
      · rw [place?_unmark] at hplace
        rw [removeAt_unmark] at hplant
        exact .inl ⟨index, hplace, hplant.trans (unmark_unmark _)⟩
      · rw [freeFrom_unmark] at hplant
        exact .inr ⟨start, hplant.trans (unmark_unmark _)⟩

/-- What has been granted is seen. -/
theorem Grants.flagsOf {flags : LeafFlags} (h : q.Grants r key flags) (hq : q.unmark.WellFormed) :
    r.has key = true ∧ r.flagsOf key = flags.callers := by
  obtain ⟨hanswer, hplant⟩ := h
  have hunmark := q.setFlags_unmark key flags
  have hnext : r.unmark = (q.unmark.setFlags key flags).plant :=
    hplant.trans (congrArg Outcome.plant hunmark).symm
  replace hanswer : (q.unmark.setFlags key flags).answer = .ok () := hunmark ▸ hanswer
  rw [← r.has_unmark, ← r.flagsOf_unmark, hnext]
  rcases hq.change_cases key (fun leaf => { leaf with flags := leaf.flags.replaceVisible flags })
    with ⟨-, ha, -⟩ | ⟨leaf, hfind, -, hp⟩
  · rw [Plant.setFlags, ha] at hanswer
    cases hanswer
  · have hname := (hq.find?_eq_some_iff.mp hfind).2.2
    have hchanged : (q.unmark.setFlags key flags).plant.find? key =
        some { leaf with flags := leaf.flags.replaceVisible flags } := by
      rw [Plant.setFlags, hp, hq.find?_alter _ (Leaf.isContent_flags flags), hfind,
        Option.map_some, Leaf.alter_of_name hname]
    refine ⟨has_eq_true_iff.mpr ⟨_, hchanged⟩, ?_⟩
    rw [Plant.flagsOf, askOr_of_find?_some hchanged, LeafFlags.visible_replaceVisible,
      LeafFlags.visible_eq_callers]

end

section

variable {q : Plant} (hq : q.Searchable) {key : String} (hhas : q.has key = true)

include hq hhas

/-- Callers see the same flags if those of the leaf are not changed. -/
theorem Searchable.retains_alter {name : String} {f : Leaf → Leaf} (hf : Leaf.IsContent f)
    (hflags : leafName key = name → ∀ leaf, (f leaf).flags = leaf.flags) :
    q.Retains (q.alter name f) key := by
  obtain ⟨leaf, hfind⟩ := has_eq_true_iff.mp hhas
  have hname := (hq.find?_eq_some_iff.mp hfind).2.2
  have hnext : (q.alter name f).find? key = some (leaf.alter name f) := by
    rw [hq.find?_alter name hf, hfind, Option.map_some]
  have hsame : (leaf.alter name f).flags = leaf.flags := by
    by_cases h : leaf.name = name
    · rw [Leaf.alter_of_name h, hflags (hname.symm.trans h)]
    · rw [Leaf.alter_of_ne h]
  refine ⟨has_eq_true_iff.mpr ⟨_, hnext⟩, ?_⟩
  rw [Plant.flagsOf, Plant.flagsOf, askOr_of_find?_some hnext, askOr_of_find?_some hfind, hsame]

theorem Searchable.retains_updateNow (other : String) (seed : Seed) (values : List Value) :
    q.Retains (q.updateNow other seed values).plant key := by
  rcases hq.updateNow_cases other seed values with ⟨e, -, hp⟩ | ⟨leaf, elements, -, -, -, hp⟩
  · rw [hp]
    exact retains_of_find? hhas rfl
  · rw [hp]
    exact hq.retains_alter hhas (Leaf.isContent_elements elements) fun _ _ => rfl

/-- A write makes no leaf under a name that a leaf has. -/
theorem Searchable.retains_set (hr : (q.set other seed values).plant.Searchable) :
    q.Retains (q.set other seed values).plant key := by
  rcases hq.set_cases other seed values with ⟨e, -, hp⟩ | ⟨leaf, elements, -, -, -, hp⟩ |
      ⟨elements, hnone, hd, -, -, hp⟩
  · rw [hp]
    exact retains_of_find? hhas rfl
  · rw [hp]
    exact hq.retains_alter hhas (Leaf.isContent_elements elements) fun _ _ => rfl
  · rw [hp] at hr ⊢
    have hother : (Leaf.create other seed elements).name ≠ leafName key := by
      obtain ⟨leaf, hfind⟩ := has_eq_true_iff.mp hhas
      obtain ⟨-, hmem, hname⟩ := hq.find?_eq_some_iff.mp hfind
      rw [← hname]
      exact (hr.name_ne_of_link leaf hmem).symm
    exact retains_of_find? hhas ((hq.find?_link hd hr key).trans (if_neg hother))

theorem Searchable.retains_publish_all (ws : List Waiting) :
    q.Retains (ws.foldl Waiting.publish q) key := by
  induction ws generalizing q with
  | nil => exact retains_of_find? hhas rfl
  | cons w ws ih =>
      have hpublish : (w.publish q).Searchable ∧ q.Retains (w.publish q) key := by
        cases w with
        | publishing name elements =>
            have hcontent := Leaf.isContent_elements elements
            refine ⟨(hq.modify_keeps name hcontent).1, ?_⟩
            obtain ⟨leaf, hfind⟩ := has_eq_true_iff.mp hhas
            show q.Retains (q.modify name _) key
            rw [hq.modify_eq_alter (hq.isDefunct_of_find? hfind)]
            exact hq.retains_alter hhas hcontent fun _ _ => rfl
        | _ => exact ⟨hq, retains_of_find? hhas rfl⟩
      have hrest := ih hpublish.1 hpublish.2.has
      exact ⟨hrest.has, hrest.flagsOf.trans hpublish.2.flagsOf⟩

/-- A leaf that is still there when others have gone is the same leaf. -/
theorem Searchable.retains_of_subset {r : Plant} (hr : r.Searchable)
    (hsub : r.leaves ⊆ q.leaves) (hnext : r.has key = true) : q.Retains r key := by
  obtain ⟨leaf, hfind⟩ := has_eq_true_iff.mp hnext
  obtain ⟨-, hmem, hname⟩ := hr.find?_eq_some_iff.mp hfind
  obtain ⟨old, hold⟩ := has_eq_true_iff.mp hhas
  have hlive := hq.isDefunct_of_find? hold
  exact retains_of_find? hhas
    (hfind.trans (hq.find?_eq_some_iff.mpr ⟨hlive, hsub hmem, hname⟩).symm)

end

section

variable {calls : List Call} {q : Plant} (hq : q.WellFormed) {key : String}
  (hhas : q.has key = true)

include hq hhas

theorem WellFormed.retains_or_ends_removeAt (index : Nat) :
    q.Retains (q.removeAt index).plant key ∨ Ends calls q (q.removeAt index).plant key := by
  have hs := hq.toSearchable
  rcases q.removeAt_cases index with ⟨e, -, hp⟩ | ⟨leaf, hleaf, -, -, hp⟩
  · rw [hp]
    exact .inl (retains_of_find? hhas rfl)
  · have hwithout : (q.removeAt index).plant = q.without leaf.name := by
      rw [hp, hs.eraseIdx_chain hleaf]
      rfl
    have hmem : leaf ∈ q.chain := List.mem_of_getElem? hleaf
    have hfind := hs.find?_without (hs.chain_name leaf hmem) key
    rw [← hwithout] at hfind
    -- The leaf that goes is the one of the key, or the search passes it by as before.
    by_cases hkey : leafName key = leaf.name
    · rw [if_pos hkey] at hfind
      obtain ⟨old, hold⟩ := has_eq_true_iff.mp hhas
      have hplace : q.place? key = some (.link index) :=
        hs.place?_eq_link_iff.mpr ⟨hs.isDefunct_of_find? hold, leaf, hleaf, hkey.symm⟩
      exact .inr (.sheds ⟨has_eq_false_iff.mpr hfind, .inl ⟨index, hplace, rfl⟩⟩)
    · rw [if_neg hkey] at hfind
      exact .inl (retains_of_find? hhas hfind)

theorem WellFormed.retains_or_ends_freeFrom (start : Nat) :
    q.Retains (q.freeFrom start).plant key ∨ Ends calls q (q.freeFrom start).plant key := by
  cases hnext : (q.freeFrom start).plant.has key with
  | false => exact .inr (.sheds ⟨hnext, .inr ⟨start, rfl⟩⟩)
  | true =>
      have hsub : (q.sweep start).leaves ⊆ q.leaves :=
        List.cons_subset_cons _ (q.sweep_sublist start).subset
      have hs := hq.toSearchable.sweep start
      rcases q.freeFrom_cases start with ⟨-, -, hp⟩ | ⟨-, -, -, hp⟩ | ⟨-, -, hok, -⟩
      · rw [hp] at hnext ⊢
        exact .inl (hq.retains_of_subset hhas hs hsub hnext)
      · rw [hp] at hnext ⊢
        exact .inl (hq.retains_of_subset hhas hs hsub hnext)
      · -- A freed plant has no leaves.
        rw [Plant.has, find?_of_isDefunct (isDefunct_freeFrom hok)] at hnext
        cases hnext

/-- A turn of a call retains what is seen of the flags of a leaf, unless it is that of a change of
these flags, or takes the leaf away. -/
theorem WellFormed.retains_or_ends_of_turn {r : Plant} (hr : r.WellFormed)
    (hturn : Turn (Call.AskedAmong calls) q r) : q.Retains r key ∨ Ends calls q r key := by
  have hs := hq.toSearchable
  have hstays : q.Retains q key ∨ Ends calls q q key := .inl (retains_of_find? hhas rfl)
  cases hturn with
  | stays => exact hstays
  | updates other seed values => exact .inl (hs.retains_updateNow hhas other seed values)
  | publishes ws => exact .inl (hs.retains_publish_all hhas ws)
  | removes index => exact hq.retains_or_ends_removeAt hhas index
  | frees start => exact hq.retains_or_ends_freeFrom hhas start
  | performs call hcall =>
      cases call with
      | set other seed values =>
          exact .inl (hs.retains_set hhas hr.toSearchable)
      | setHostWord other word =>
          show q.Retains (q.setHostWord other word).plant key ∨
            Ends calls q (q.setHostWord other word).plant key
          rw [Plant.setHostWord]
          rcases hs.change_cases other (fun leaf => { leaf with hostWord := word }) with
            ⟨-, -, hp⟩ | ⟨leaf, -, -, hp⟩
          · rw [hp]
            exact hstays
          · rw [hp]
            exact .inl (hs.retains_alter hhas (Leaf.isContent_hostWord word) fun _ _ => rfl)
      | setFlags other flags =>
          -- The call has asked for the flags under the same name, if not the same key.
          obtain ⟨asked, hmem, hasked⟩ := hcall other flags rfl
          have hsame : q.setFlags asked flags = q.setFlags other flags := by
            rw [← hs.setFlags_leafName, hasked, hs.setFlags_leafName]
          show q.Retains (q.setFlags other flags).plant key ∨
            Ends calls q (q.setFlags other flags).plant key
          rcases hs.change_cases other
              (fun leaf => { leaf with flags := leaf.flags.replaceVisible flags }) with
            ⟨-, -, hp⟩ | ⟨leaf, -, hok, hp⟩
          · rw [Plant.setFlags, hp]
            exact hstays
          · by_cases hname : leafName key = leafName other
            · refine .inr (.grants hmem (hasked.trans hname.symm) ⟨?_, ?_⟩)
              · rw [hsame]
                exact hok
              · rw [hsame]
            · rw [Plant.setFlags, hp]
              exact .inl (hs.retains_alter hhas (Leaf.isContent_flags flags) fun h =>
                absurd h hname)
      | delete other =>
          show q.Retains (q.delete other).plant key ∨ Ends calls q (q.delete other).plant key
          rw [Plant.delete]
          split
          · rw [reportDeleted_plant]
            exact hq.retains_or_ends_removeAt hhas _
          · exact hstays
          · exact hstays
      | free =>
          show q.Retains q.free.plant key ∨ Ends calls q q.free.plant key
          rcases q.free_cases with ⟨-, -, hp⟩ | ⟨-, -, -, hp⟩ | ⟨-, -, hfree⟩
          · rw [hp]
            exact hstays
          · rw [hp]
            exact hstays
          · rw [hfree]
            exact hq.retains_or_ends_freeFrom hhas 0
      | _ => exact hstays

end

/-! ### Along the course -/

section

variable {p : Plant} (hp : p.Reachable) {session : List Episode} (hadm : p.AdmitsAll session)

include hp hadm

/-- From one plant of the course to the next. -/
theorem Reachable.retains_or_ends_course {q r : Plant} (hnext : [q, r] <:+: p.course session)
    {key : String} (hhas : q.has key = true) :
    q.Retains r key ∨ Ends (session.flatMap Episode.calls) q r key := by
  have hobeys : ∀ e ∈ session, e.Obeys (Call.AskedAmong (session.flatMap Episode.calls)) :=
    fun e he call hcall key flags hflags =>
      ⟨key, List.mem_flatMap.mpr ⟨e, he, hflags ▸ hcall⟩, rfl⟩
  have hcourse := hp.turns_course hadm hobeys
  have hpair := List.IsChain.infix hcourse hnext
  have hturn := List.isChain_pair.mp hpair
  have hwf := hp.wellFormed_course hadm
  have hq := hwf q (hnext.subset List.mem_cons_self)
  have hr := hwf r (hnext.subset (List.mem_cons_of_mem _ List.mem_cons_self))
  rw [← q.has_unmark] at hhas
  exact (hq.retains_or_ends_of_turn hhas hr hturn).imp Retains.of_unmark Ends.of_unmark

/-- Along a stretch of the course callers see the same flags of a leaf, unless they are changed or
the leaf goes on the way. -/
theorem Reachable.retains_or_ends_stretch {q r : Plant} {between : List Plant}
    (hstretch : q :: (between ++ [r]) <:+: p.course session) {key : String}
    (hhas : q.has key = true) :
    q.Retains r key ∨ ∃ a b, [a, b] <:+: q :: (between ++ [r]) ∧ a.has key = true ∧
      ¬a.Retains b key ∧ Ends (session.flatMap Episode.calls) a b key := by
  induction between generalizing q with
  | nil =>
      have hstep := hp.retains_or_ends_course hadm hstretch hhas
      by_cases hkept : q.Retains r key
      · exact .inl hkept
      · exact .inr ⟨q, r, List.infix_rfl, hhas, hkept, hstep.resolve_left hkept⟩
  | cons s between ih =>
      have hfirst : [q, s] <:+: q :: (s :: between ++ [r]) := ⟨[], between ++ [r], rfl⟩
      have hstep := hp.retains_or_ends_course hadm (hfirst.trans hstretch) hhas
      by_cases hkept : q.Retains s key
      · -- What is seen at the second plant is what is seen at the first.
        have hlater := ih ((List.suffix_cons q _).isInfix.trans hstretch) hkept.has
        rcases hlater with hrest | ⟨a, b, hab, hrest⟩
        · exact .inl ⟨hrest.has, hrest.flagsOf.trans hkept.flagsOf⟩
        · exact .inr ⟨a, b, hab.trans (List.suffix_cons q _).isInfix, hrest⟩
      · exact .inr ⟨q, s, hfirst, hhas, hkept, hstep.resolve_left hkept⟩

end

end Plant

end PlantStore
