import Mathlib.Data.List.InsertIdx
import PlantStore.Proofs.History.Law
import PlantStore.Proofs.Journal.Line

/-! # The log is a journal of the chain

Log and chain are changed at different places of a call. That they still agree is shown for
one call first: what its events say about the chain leads from the keys before to the keys
after. A run is then read to its end by induction, since a reader of two logs, one after the
other, goes on where the first has left off. -/

namespace PlantStore

open Journal

namespace Plant

/-- The keys of the leaves behind the root, in their order. -/
def linkedNames (p : Plant) : List String := p.chain.map Leaf.name

/-- A debug plant's report of a call says nothing about the chain. -/
theorem told_report (p : Plant) {event : Event} (h : event.move? = none) :
    told (p.report event) = [] := by
  rw [report]
  cases p.isDebug with
  | true => rw [if_pos rfl, told, List.filterMap_cons, h, List.filterMap_nil]
  | false => rfl

/-- The report of a removal says nothing more about the chain. -/
theorem told_reportDeleted (p : Plant) (key : String) (removal : Outcome (Result Unit)) :
    told (p.reportDeleted key removal).events = told removal.events := by
  rw [reportDeleted]
  cases removal.answer with
  | error e => rfl
  | ok _ => rw [told_append, p.told_report rfl, List.append_nil]

theorem linkedNames_alter (p : Plant) (name : String) {f : Leaf → Leaf} (hf : Leaf.IsContent f) :
    (p.alter name f).linkedNames = p.linkedNames :=
  map_name_alter p.chain name hf

theorem linkedNames_sweep (p : Plant) :
    (p.sweep 0).linkedNames = (p.chain.filter Leaf.isUndeletable).map Leaf.name := rfl

/-! ### Taking out several leaves -/

/-- The leaves that may go, taken out one by one in the order of the chain, leave the others.
Those in front have been passed already. -/
theorem follow_leaves (passed chain : List Leaf)
    (h : ((passed ++ chain).map Leaf.name).Nodup) :
    follow ((passed ++ chain).map Leaf.name)
        ((chain.filter fun leaf => !leaf.isUndeletable).map fun leaf => .leaves leaf.name) =
      some ((passed ++ chain.filter Leaf.isUndeletable).map Leaf.name) := by
  induction chain generalizing passed with
  | nil => rfl
  | cons leaf chain ih =>
      cases hu : leaf.isUndeletable with
      | true =>
          -- The leaf is passed and stays.
          rw [List.filter_cons_of_neg (by rw [hu]; decide), List.filter_cons_of_pos hu,
            List.append_cons passed leaf chain, List.append_cons passed leaf (chain.filter _)]
          exact ih (passed ++ [leaf]) (List.append_cons passed leaf chain ▸ h)
      | false =>
          rw [List.filter_cons_of_pos (by rw [hu]; rfl),
            List.filter_cons_of_neg (by rw [hu]; decide), List.map_cons]
          have hnodup := h
          rw [List.map_append, List.map_cons, List.nodup_middle, List.nodup_cons,
            ← List.map_append] at hnodup
          have herase : ((passed ++ leaf :: chain).map Leaf.name).erase leaf.name =
              (passed ++ chain).map Leaf.name := by
            have hpassed : leaf.name ∉ passed.map Leaf.name := fun hmem =>
              hnodup.1 (by rw [List.map_append]; exact List.mem_append_left _ hmem)
            rw [List.map_append, List.map_cons, List.erase_append_right _ hpassed,
              List.erase_cons_head, List.map_append]
          have hmem : leaf.name ∈ (passed ++ leaf :: chain).map Leaf.name :=
            List.mem_map_of_mem (List.mem_append_right _ List.mem_cons_self)
          rw [follow, List.foldlM_cons, advance_leaves hmem, herase]
          exact ih passed hnodup.2

variable [KeyHash]

section

variable {p : Plant}

theorem told_getEvents (key : String) (index : Nat) : told (p.getEvents key index) = [] := by
  rw [getEvents]
  cases p.find? key with
  | none => rfl
  | some leaf =>
      dsimp only
      split
      · exact p.told_report rfl
      · rfl

/-- A sweep of the whole chain tells of the leaves that go. -/
theorem told_freeFrom :
    told (p.freeFrom 0).events =
      (p.chain.filter fun leaf => !leaf.isUndeletable).map fun leaf => .leaves leaf.name := by
  have hsweep : told (p.sweepEvents 0) =
      (p.chain.filter fun leaf => !leaf.isUndeletable).map fun leaf => .leaves leaf.name := by
    rw [told, sweepEvents, List.filterMap_map, List.drop_zero]
    exact congrFun List.filterMap_eq_map _
  simp only [freeFrom]
  split
  · rw [told_append, told_append, hsweep, told_getEvents, List.append_nil]
    exact List.append_nil _
  · split
    · exact hsweep
    · rw [told_append, hsweep, p.told_report rfl, List.append_nil]

/-- A `free` is refused in silence, or it sweeps the chain. -/
theorem told_free :
    told p.free.events = [] ∧ p.free.plant = p ∨
      told p.free.events =
        ((p.chain.filter fun leaf => !leaf.isUndeletable).map fun leaf => .leaves leaf.name) ∧
      p.free.plant.linkedNames = (p.chain.filter Leaf.isUndeletable).map Leaf.name := by
  rw [free]
  cases p.root.isUndeletable with
  | true => exact .inl ⟨rfl, rfl⟩
  | false =>
      rw [if_neg Bool.false_ne_true, freeAfterWait]
      cases p.isDefunct with
      | true => exact .inl ⟨rfl, rfl⟩
      | false =>
          rw [if_neg Bool.false_ne_true]
          refine .inr ⟨told_freeFrom, ?_⟩
          rw [← linkedNames_sweep]
          rcases p.freeFrom_cases 0 with ⟨-, -, hp⟩ | ⟨-, -, -, hp⟩ | ⟨-, -, -, hp⟩
          · rw [hp]
          · rw [hp]
          · rw [hp]
            rfl

end

section

variable {p : Plant} (h : p.WellFormed)

include h

/-! ### One operation -/

/-- A write tells of the leaf that it makes, and of nothing else. -/
theorem WellFormed.told_set (key : String) (seed : Seed) (values : List Value) :
    (told (p.set key seed values).events = [] ∧
      (p.set key seed values).plant.linkedNames = p.linkedNames) ∨
    (told (p.set key seed values).events = [.enters key (StoredKey.ofString key).isInline] ∧
      (p.set key seed values).answer = .ok () ∧ p.has key = false ∧ key ∉ p.linkedNames ∧
      (p.set key seed values).plant.linkedNames = key :: p.linkedNames) := by
  cases hhas : p.has key with
  | true =>
      obtain ⟨leaf, hfind⟩ := has_eq_true_iff.mp hhas
      have hd := h.isDefunct_of_find? hfind
      left
      constructor
      · rw [Plant.set, store, if_neg (Bool.eq_false_iff.mp hd), if_pos hhas]
        cases p.update key seed values with
        | error e => exact p.told_report rfl
        | ok after => exact p.told_report rfl
      · rcases h.set_cases key seed values with ⟨e, -, hp⟩ | ⟨-, elements, -, -, -, hp⟩ |
            ⟨-, hnone, -⟩
        · rw [hp]
        · rw [hp, linkedNames_alter p _ (Leaf.isContent_elements elements)]
        · rw [hfind] at hnone
          cases hnone
  | false =>
      rw [Plant.set, store]
      cases hd : p.isDefunct with
      | true => exact .inl ⟨p.told_report rfl, rfl⟩
      | false =>
          rw [if_neg Bool.false_ne_true, hhas, if_neg Bool.false_ne_true, insert]
          cases he : Element.encodeAll seed values with
          | error e => exact .inl ⟨p.told_report rfl, rfl⟩
          | ok elements =>
              have hlink := h.link hd (has_eq_false_iff.mp hhas) he
              have hname : (Leaf.create key seed elements).name = key := Leaf.name_create ..
              right
              refine ⟨?_, rfl, rfl, ?_, ?_⟩
              · show told ([_] ++ p.report _) = _
                rw [told_append, p.told_report rfl]
                rfl
              · intro hmem
                obtain ⟨old, hold, heq⟩ := List.mem_map.mp hmem
                exact hlink.name_ne_of_link old (List.mem_cons_of_mem _ hold)
                  (heq.trans hname.symm)
              · show (Leaf.create key seed elements).name :: p.linkedNames = _
                rw [hname]

/-- A removal tells of the leaf that it takes out. -/
theorem WellFormed.told_delete (key : String) :
    (∃ e, (p.delete key).answer = .error e ∧ told (p.delete key).events = [] ∧
      (p.delete key).plant = p) ∨
    ∃ name ∈ p.linkedNames, told (p.delete key).events = [.leaves name] ∧
      (p.delete key).answer = .ok () ∧
      (p.delete key).plant.linkedNames = p.linkedNames.erase name := by
  rw [Plant.delete]
  cases p.place? key with
  | none => exact .inl ⟨.noSuchLeaf, rfl, rfl, rfl⟩
  | some place =>
      cases place with
      | root => exact .inl ⟨.noSuchLeaf, rfl, rfl, rfl⟩
      | link index =>
          simp only [reportDeleted_answer, reportDeleted_plant, told_reportDeleted]
          rw [Plant.removeAt]
          cases hleaf : p.chain[index]? with
          | none => exact .inl ⟨.noSuchLeaf, rfl, rfl, rfl⟩
          | some leaf =>
              dsimp only
              cases leaf.isUndeletable with
              | true => exact .inl ⟨.undeletable, rfl, rfl, rfl⟩
              | false =>
                  right
                  refine ⟨leaf.name, List.mem_map_of_mem (List.mem_of_getElem? hleaf), rfl, rfl, ?_⟩
                  -- Names are unique, so to erase the leaf is to erase the only entry of its name.
                  show (p.chain.eraseIdx index).map Leaf.name = p.linkedNames.erase leaf.name
                  rw [linkedNames, h.chain_nodup.erase_eq_filter, h.eraseIdx_chain hleaf,
                    List.filter_map]
                  rfl

/-- What a `free` tells of are the keys that it takes out, in the order of the chain. -/
theorem WellFormed.told_free_eq :
    told p.free.events =
      (p.linkedNames.filter fun name => name ∉ p.free.plant.linkedNames).map .leaves := by
  rcases told_free (p := p) with ⟨htold, hp⟩ | ⟨htold, hnames⟩
  · rw [htold, hp, List.filter_eq_nil_iff.mpr]
    · rfl
    · intro name hname
      simpa using hname
  · rw [htold, hnames, linkedNames, List.filter_map, List.map_map]
    congr 1
    apply List.filter_congr
    -- The leaves that go are told by their names, since no other leaf has the same.
    intro leaf hleaf
    rw [Bool.eq_iff_iff, Bool.not_eq_true', Function.comp_apply, decide_eq_true_iff]
    constructor
    · intro hu hmem
      obtain ⟨other, hother, hname⟩ := List.mem_map.mp hmem
      obtain ⟨hchain, hkept⟩ := List.mem_filter.mp hother
      obtain rfl : other = leaf := h.eq_of_name (List.mem_cons_of_mem _ hchain)
        (List.mem_cons_of_mem _ hleaf) hname
      rw [hu] at hkept
      cases hkept
    · intro hgone
      by_contra hu
      rw [Bool.not_eq_false] at hu
      exact hgone (List.mem_map_of_mem (List.mem_filter.mpr ⟨hleaf, hu⟩))

/-! ### One call -/

/-- What the events of a call say leads from the keys before it to the keys after it. -/
theorem WellFormed.follow_perform (call : Call) :
    follow p.linkedNames (told (p.perform call).events) =
      some (p.perform call).plant.linkedNames := by
  have hstill {α : Type} {o : Outcome α} (hevents : told o.events = [])
      (hnames : o.plant.linkedNames = p.linkedNames) :
      follow p.linkedNames (told o.events) = some o.plant.linkedNames := by
    rw [hevents, hnames]
    rfl
  cases call with
  | set key seed values =>
      show follow _ (told (p.set key seed values).events) =
        some (p.set key seed values).plant.linkedNames
      rcases h.told_set key seed values with ⟨htold, hnames⟩ | ⟨htold, -, -, hnew, hnames⟩
      · exact hstill htold hnames
      · rw [htold, hnames, follow, List.foldlM_cons, advance_enters hnew]
        rfl
  | setFlags key flags =>
      apply hstill (congrArg told (events_change key _))
      rcases h.change_cases key fun leaf =>
          { leaf with flags := leaf.flags.replaceVisible flags } with ⟨-, -, hp⟩ | ⟨-, -, -, hp⟩
      · exact congrArg linkedNames hp
      · exact (congrArg linkedNames hp).trans (linkedNames_alter p _ (Leaf.isContent_flags flags))
  | setHostWord key word =>
      apply hstill (congrArg told (events_change key _))
      rcases h.change_cases key fun leaf => { leaf with hostWord := word } with
        ⟨-, -, hp⟩ | ⟨-, -, -, hp⟩
      · exact congrArg linkedNames hp
      · exact (congrArg linkedNames hp).trans (linkedNames_alter p _ (Leaf.isContent_hostWord word))
  | delete key =>
      show follow _ (told (p.delete key).events) = some (p.delete key).plant.linkedNames
      rcases h.told_delete key with ⟨e, -, htold, hp⟩ | ⟨name, hmem, htold, -, hnames⟩
      · exact hstill htold (congrArg linkedNames hp)
      · rw [htold, hnames, follow, List.foldlM_cons, advance_leaves hmem]
        rfl
  | free =>
      show follow _ (told p.free.events) = some p.free.plant.linkedNames
      rcases told_free (p := p) with ⟨htold, hp⟩ | ⟨htold, hnames⟩
      · exact hstill htold (congrArg linkedNames hp)
      · rw [htold, hnames]
        exact follow_leaves [] p.chain h.chain_nodup
  | get key index => exact hstill (told_getEvents key index) rfl
  | getAs kind key => exact hstill (told_getEvents key 0) rfl
  | type => exact hstill (told_getEvents rootKey 0) rfl
  | _ => rfl

end

/-! ### Runs -/

/-- The events of a run, in their order. -/
def runEvents (p : Plant) (calls : List Call) : List Event :=
  (p.run calls).2.flatMap Outcome.events

theorem WellFormed.follow_run {p : Plant} (h : p.WellFormed) (calls : List Call) :
    follow p.linkedNames (told (p.runEvents calls)) = some (p.run calls).1.linkedNames := by
  induction calls generalizing p with
  | nil => rfl
  | cons call calls ih =>
      have hevents : p.runEvents (call :: calls) =
          (p.perform call).events ++ (p.perform call).plant.runEvents calls := rfl
      rw [hevents, told_append, follow_append, h.follow_perform]
      exact ih (h.perform call)

/-- The keys that a plant lists are the root's and those of the chain, and none once it has been
freed. -/
theorem WellFormed.keys_eq {p : Plant} (h : p.WellFormed) :
    p.keys = .ok (if p.isDefunct then [] else "type" :: p.linkedNames) := by
  rw [keys, names, h.root_name]
  rfl

theorem WellFormed.linkedNames_of_isDefunct {p : Plant} (h : p.WellFormed)
    (hd : p.isDefunct = true) : p.linkedNames = [] := by
  rw [linkedNames, (h.freed hd).1]
  rfl

theorem WellFormed.mem_names_iff {p : Plant} (h : p.WellFormed) {name : String}
    (hname : name ≠ rootKey) : name ∈ p.names ↔ name ∈ p.linkedNames := by
  cases hd : p.isDefunct with
  | true => rw [names, hd, if_pos rfl, h.linkedNames_of_isDefunct hd]
  | false =>
      rw [names, hd, if_neg Bool.false_ne_true, List.mem_cons, h.root_name]
      exact ⟨fun hmem => hmem.resolve_left hname, .inr⟩

/-- The log of a plant is a journal of its chain. Whatever is called on a new plant, the lines
of the log down to the finest level can be read one after the other, from no key on: no key
enters twice, none leaves that is not there, and the remark on where a key is kept is right.
What a reader has listed in the end are the keys of the plant behind the first one, `type`, and
none once the plant has been freed.

As for a further call: a refused write, a write to an existing leaf or to its flags or its word,
and a refused removal add no such line, and a `free` adds one for each leaf that goes, in the
order of the chain. -/
theorem journal_of_run (type : Int32) (debug : Bool) (calls : List Call) :
    let p := ((Plant.make type debug).run calls).1
    let log := logLines .trace
      ((Plant.new type debug).events ++ (Plant.make type debug).runEvents calls)
    let movesOf := fun call => Journal.moves (logLines .trace (p.perform call).events)
    (∃ listed, Journal.replay log = some listed ∧
      p.keys = .ok (if p.isDefunct then [] else "type" :: listed) ∧
      (p.isDefunct = true → listed = [])) ∧
    (∀ key seed values e, (p.perform (.set key seed values)).answer = .unit (.error e) →
      movesOf (.set key seed values) = []) ∧
    (∀ key seed values, p.has key = true → movesOf (.set key seed values) = []) ∧
    (∀ key flags, movesOf (.setFlags key flags) = []) ∧
    (∀ key word, movesOf (.setHostWord key word) = []) ∧
    (∀ key e, (p.perform (.delete key)).answer = .unit (.error e) → movesOf (.delete key) = []) ∧
    (∀ listed, p.keys = .ok ("type" :: listed) →
      movesOf .free = (listed.filter fun key => key ∉ p.free.plant.names).map .leaves) ∧
    (p.isDefunct = true → movesOf .free = []) := by
  intro p log movesOf
  have hp : p.WellFormed := (WellFormed.make type debug).run calls
  have hmoves (call : Call) : movesOf call = told (p.perform call).events := moves_logLines _
  refine ⟨⟨p.linkedNames, ?_, hp.keys_eq, hp.linkedNames_of_isDefunct⟩, ?_, ?_, ?_, ?_, ?_, ?_, ?_⟩
  · have hnew : told (Plant.new type debug).events = [] := told_report _ rfl
    rw [replay_logLines, told_append, hnew, List.nil_append]
    exact (WellFormed.make type debug).follow_run calls
  · intro key seed values e hrefused
    rw [hmoves]
    rcases hp.told_set key seed values with ⟨htold, -⟩ | ⟨-, hok, -⟩
    · exact htold
    · have hrefused' : (p.set key seed values).answer = .error e := Answer.unit.inj hrefused
      rw [hok] at hrefused'
      cases hrefused'
  · intro key seed values hhas
    rw [hmoves]
    rcases hp.told_set key seed values with ⟨htold, -⟩ | ⟨-, -, hnew, -⟩
    · exact htold
    · rw [hhas] at hnew
      cases hnew
  · exact fun key flags => (hmoves _).trans (congrArg told (events_change key _))
  · exact fun key word => (hmoves _).trans (congrArg told (events_change key _))
  · intro key e hrefused
    rw [hmoves]
    rcases hp.told_delete key with ⟨-, -, htold, -⟩ | ⟨name, -, -, hok, -⟩
    · exact htold
    · have hrefused' : (p.delete key).answer = .error e := Answer.unit.inj hrefused
      rw [hok] at hrefused'
      cases hrefused'
  · intro listed hkeys
    have hlisted : listed = p.linkedNames := by
      rw [hp.keys_eq] at hkeys
      cases hd : p.isDefunct with
      | true =>
          rw [hd] at hkeys
          cases hkeys
      | false =>
          rw [hd] at hkeys
          exact (List.cons.inj (Except.ok.inj hkeys)).2.symm
    rw [hmoves, hlisted]
    refine hp.told_free_eq.trans (congrArg _ (List.filter_congr ?_))
    intro name hmem
    obtain ⟨leaf, hleaf, rfl⟩ := List.mem_map.mp hmem
    exact decide_eq_decide.mpr (not_congr (hp.free.mem_names_iff (hp.chain_name leaf hleaf)).symm)
  · intro hd
    have hnone : p.linkedNames = [] := hp.linkedNames_of_isDefunct hd
    rw [hmoves]
    refine hp.told_free_eq.trans ?_
    rw [hnone]
    rfl

end Plant
end PlantStore
