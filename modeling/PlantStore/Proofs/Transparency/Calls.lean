import Mathlib.Data.List.InsertIdx
import PlantStore.Proofs.Transparency.Recast

/-! # Calls on a recast plant

Every operation that changes a plant makes of the recast plant what it makes of the plant, recast.
It gives the same answer, and reports the same but for what is not heard. Only the description of
the plant shows the hash, and only it and the question for it show whether a plant is a debug
plant. -/

namespace PlantStore

/-- Whether a call asks how the store is built: for the description of the plant, or whether it is a
debug plant. -/
def Call.isReflective : Call → Bool
  | .describe | .isDebug => true
  | _ => false

namespace Plant

variable [KeyHash] (g : String → UInt32) (quiet : Bool) {p : Plant}

/-! ### Writing -/

theorem link_recast (p : Plant) (key : String) (seed : Seed) (elements : List Element) :
    (p.recast g quiet).link (@Leaf.create ⟨g⟩ key seed elements) =
      (p.link (.create key seed elements)).recast g quiet := by
  have hleaf : @Leaf.create ⟨g⟩ key seed elements =
      (Leaf.create key seed elements).recast g := by
    rw [Leaf.recast, Leaf.name_create]
    rfl
  rw [hleaf]
  rfl

section

variable (h : p.Hashed)

include h

theorem Hashed.modify_recast {f : Leaf → Leaf}
    (hf : ∀ leaf, (f leaf).recast g = f (leaf.recast g)) (key : String) :
    @modify ⟨g⟩ (p.recast g quiet) key f = (p.modify key f).recast g quiet := by
  unfold modify
  rw [h.place?_recast]
  cases p.place? key with
  | none => rfl
  | some place =>
      cases place with
      | root => exact congrArg (fun root => { p.recast g quiet with root := root }) (hf p.root).symm
      | link index =>
          have hchain : (p.chain.map (Leaf.recast g)).modify index f =
              (p.chain.modify index f).map (Leaf.recast g) := by
            refine List.ext_getElem (by simp) fun i _ _ => ?_
            simp only [List.getElem_modify, List.getElem_map]
            split
            · exact (hf _).symm
            · rfl
          exact congrArg (fun chain => { p.recast g quiet with chain := chain }) hchain

theorem Hashed.publish_recast (key : String) (elements : List Element) :
    @publish ⟨g⟩ (p.recast g quiet) key elements = (p.publish key elements).recast g quiet := by
  apply h.modify_recast
  intro leaf
  rfl

theorem Hashed.update_recast (key : String) (seed : Seed) (values : List Value) :
    @update ⟨g⟩ (p.recast g quiet) key seed values =
      (p.update key seed values).map (recast g quiet) := by
  unfold update
  rw [h.find?_recast, h.place?_recast]
  cases p.find? key with
  | none => rfl
  | some leaf =>
      have hrenewal : renewal (p.place? key == some .root) (leaf.recast g) seed values =
          renewal (p.place? key == some .root) leaf seed values := rfl
      simp only [Option.map_some, hrenewal, h.publish_recast]
      cases renewal (p.place? key == some .root) leaf seed values <;> rfl

theorem Hashed.updateNow_recast (key : String) (seed : Seed) (values : List Value) :
    @updateNow ⟨g⟩ (p.recast g quiet) key seed values =
      (p.updateNow key seed values).recast g quiet := by
  unfold updateNow
  rw [h.update_recast]
  cases p.update key seed values <;> simp only [Except.map, Outcome.recast, heard_nil]

omit h in
theorem insert_recast (p : Plant) (key : String) (seed : Seed) (values : List Value) :
    @insert ⟨g⟩ (p.recast g quiet) key seed values =
      (p.insert key seed values).map (recast g quiet) := by
  unfold insert
  cases Element.encodeAll seed values with
  | error e => rfl
  | ok elements => exact congrArg Except.ok (link_recast g quiet p key seed elements)

theorem Hashed.store_recast (key : String) (seed : Seed) (values : List Value) :
    @store ⟨g⟩ (p.recast g quiet) key seed values =
      (p.store key seed values).map fun (after, events) =>
        (after.recast g quiet, heard quiet events) := by
  have hlinked : heard quiet [.linked key (StoredKey.ofString key).isInline] =
      [.linked key (StoredKey.ofString key).isInline] := heard_of_forall_ne (by simp [Event.level])
  unfold store
  rw [isDefunct_recast, h.has_recast, h.update_recast, insert_recast]
  cases p.isDefunct with
  | true => rfl
  | false =>
      cases p.has key with
      | true => cases p.update key seed values <;> simp [Except.map, heard_nil]
      | false => cases p.insert key seed values <;> simp [Except.map, hlinked]

theorem Hashed.set_recast (key : String) (seed : Seed) (values : List Value) :
    @set ⟨g⟩ (p.recast g quiet) key seed values = (p.set key seed values).recast g quiet := by
  have hreport : ∀ result, (p.recast g quiet).report (.wrote key seed values.length result) =
      heard quiet (p.report (.wrote key seed values.length result)) := fun _ =>
    p.report_recast g quiet rfl
  unfold set
  rw [h.store_recast]
  cases p.store key seed values with
  | error e => simp only [Except.map, Outcome.recast, hreport]
  | ok result => simp only [Except.map, Outcome.recast, hreport, heard_append]

theorem Hashed.change_recast {f : Leaf → Leaf}
    (hf : ∀ leaf, (f leaf).recast g = f (leaf.recast g)) (key : String) :
    @change ⟨g⟩ (p.recast g quiet) key f = (p.change key f).recast g quiet := by
  unfold change
  rw [h.has_recast, h.modify_recast g quiet hf]
  cases p.has key <;> simp [Outcome.recast, heard_nil]

theorem Hashed.setFlags_recast (key : String) (flags : LeafFlags) :
    @setFlags ⟨g⟩ (p.recast g quiet) key flags = (p.setFlags key flags).recast g quiet := by
  apply h.change_recast
  intro leaf
  rfl

theorem Hashed.setHostWord_recast (key : String) (word : UInt64) :
    @setHostWord ⟨g⟩ (p.recast g quiet) key word =
      (p.setHostWord key word).recast g quiet := by
  apply h.change_recast
  intro leaf
  rfl

end

/-! ### Removing -/

section

variable (p)

omit [KeyHash] in
theorem removeAt_recast (index : Nat) :
    (p.recast g quiet).removeAt index = (p.removeAt index).recast g quiet := by
  rw [removeAt, removeAt, chain_recast, List.getElem?_map]
  cases p.chain[index]? with
  | none => simp [Outcome.recast]
  | some leaf =>
      have hunlinked : heard quiet [.unlinked leaf.name] = [.unlinked leaf.name] :=
        heard_of_forall_ne (by simp [Event.level])
      have hu : (leaf.recast g).isUndeletable = leaf.isUndeletable := rfl
      have hname : (leaf.recast g).name = leaf.name := rfl
      simp only [Option.map_some, hu, hname]
      split
      · simp only [Outcome.recast, heard_nil]
      · simp only [Outcome.recast, hunlinked, List.eraseIdx_map]
        rfl

omit [KeyHash] in
theorem reportDeleted_recast (key : String) (removal : Outcome (Result Unit)) :
    (p.recast g quiet).reportDeleted key (removal.recast g quiet) =
      (p.reportDeleted key removal).recast g quiet := by
  obtain ⟨answer, plant, events⟩ := removal
  cases answer with
  | error e => rfl
  | ok done =>
      have hreport : (p.recast g quiet).report (.deleted key) =
          heard quiet (p.report (.deleted key)) := p.report_recast g quiet rfl
      simp only [reportDeleted, Outcome.recast, hreport, heard_append]

omit [KeyHash] in
theorem sweep_recast (start : Nat) :
    (p.recast g quiet).sweep start = (p.sweep start).recast g quiet := by
  have hu : (Leaf.isUndeletable ∘ Leaf.recast g) = Leaf.isUndeletable := rfl
  rw [sweep, sweep, recast, recast]
  simp only [List.map_append, List.map_take, ← List.map_drop, List.filter_map, hu]

omit [KeyHash] in
theorem sweepEvents_recast (start : Nat) :
    (p.recast g quiet).sweepEvents start = p.sweepEvents start := by
  have hu : ((fun leaf : Leaf => !leaf.isUndeletable) ∘ Leaf.recast g) =
      fun leaf => !leaf.isUndeletable := rfl
  have hname : ((fun leaf : Leaf => Event.unlinked leaf.name) ∘ Leaf.recast g) =
      fun leaf => .unlinked leaf.name := rfl
  rw [sweepEvents, sweepEvents, chain_recast, ← List.map_drop, List.filter_map, List.map_map, hu,
    hname]

omit [KeyHash] in
theorem heard_sweepEvents (start : Nat) :
    heard quiet (p.sweepEvents start) = p.sweepEvents start := by
  refine heard_of_forall_ne fun event hevent => ?_
  obtain ⟨leaf, -, rfl⟩ := List.mem_map.mp hevent
  simp [Event.level]

omit [KeyHash] in
theorem bury_recast : (p.recast g quiet).bury = p.bury.recast g quiet := rfl

omit [KeyHash] in
theorem Hashed.sweep [KeyHash] {p : Plant} (h : p.Hashed) (start : Nat) :
    (p.sweep start).Hashed :=
  h.of_recast (·.sweep start) (p.sweep_recast KeyHash.hash false start)

end

section

variable (h : p.Hashed)

include h

theorem Hashed.delete_recast (key : String) :
    @delete ⟨g⟩ (p.recast g quiet) key = (p.delete key).recast g quiet := by
  unfold delete
  rw [h.place?_recast]
  cases p.place? key with
  | none => simp [Outcome.recast]
  | some place =>
      cases place with
      | root => simp [Outcome.recast]
      | link index =>
          dsimp only
          rw [removeAt_recast, reportDeleted_recast]

theorem Hashed.chainIndex?_recast (key : String) :
    @chainIndex? ⟨g⟩ (p.recast g quiet) key = p.chainIndex? key := by
  have hleft : ∀ leaf ∈ (p.recast g quiet).chain,
      leaf.hash = (⟨g⟩ : KeyHash).hash leaf.name := by
    intro leaf hleaf
    obtain ⟨old, -, rfl⟩ := List.mem_map.mp hleaf
    rfl
  unfold chainIndex?
  rw [Leaf.findIdx?_answersTo fun leaf hleaf => h leaf (List.mem_cons_of_mem _ hleaf)]
  refine (@Leaf.findIdx?_answersTo ⟨g⟩ _ hleft key).trans ?_
  rw [chain_recast, List.findIdx?_map]
  rfl

theorem Hashed.deleteAfterWait_recast (key : String) :
    @deleteAfterWait ⟨g⟩ (p.recast g quiet) key = (p.deleteAfterWait key).recast g quiet := by
  unfold deleteAfterWait
  rw [h.chainIndex?_recast]
  cases p.chainIndex? key with
  | none => simp [Outcome.recast]
  | some index =>
      dsimp only
      rw [removeAt_recast, reportDeleted_recast]

theorem Hashed.freeFrom_recast (start : Nat) :
    @freeFrom ⟨g⟩ (p.recast g quiet) start = (p.freeFrom start).recast g quiet := by
  have hswept := h.sweep start
  have hkept : ∀ type, heard quiet [.keptAlive type] = [.keptAlive type] := fun _ =>
    heard_of_forall_ne (by simp [Event.level])
  have hfreed : (p.recast g quiet).report .freed = heard quiet (p.report .freed) :=
    p.report_recast g quiet rfl
  have hempty : (((p.sweep start).chain.map (Leaf.recast g)).isEmpty) =
      (p.sweep start).chain.isEmpty := List.isEmpty_map
  have hu : ((p.sweep start).root.recast g).isUndeletable = (p.sweep start).root.isUndeletable :=
    rfl
  unfold freeFrom
  simp only [sweep_recast, sweepEvents_recast, chain_recast, root_recast, hempty, hu,
    hswept.getEvents_recast, hswept.type_recast, bury_recast, hfreed]
  split
  · simp only [Outcome.recast, heard_append, heard_sweepEvents, hkept]
  · split
    · simp only [Outcome.recast, heard_sweepEvents]
    · simp only [Outcome.recast, heard_append, heard_sweepEvents]

theorem Hashed.freeAfterWait_recast :
    @freeAfterWait ⟨g⟩ (p.recast g quiet) = p.freeAfterWait.recast g quiet := by
  unfold freeAfterWait
  rw [isDefunct_recast, h.freeFrom_recast]
  cases p.isDefunct <;> simp [Outcome.recast]

theorem Hashed.free_recast : @free ⟨g⟩ (p.recast g quiet) = p.free.recast g quiet := by
  have hu : (p.root.recast g).isUndeletable = p.root.isUndeletable := rfl
  unfold free
  rw [root_recast, hu, h.freeAfterWait_recast]
  cases p.root.isUndeletable <;> simp [Outcome.recast]

/-! ### Calls -/

/-- Every call that does not ask how the store is built has the same outcome, recast. -/
theorem Hashed.perform_recast {call : Call} (hcall : call.isReflective = false) :
    @perform ⟨g⟩ (p.recast g quiet) call = (p.perform call).recast g quiet := by
  have hanswering : ∀ {a b : Answer} {events : List Event}, a = b →
      (p.recast g quiet).answering a (heard quiet events) =
        (p.answering b events).recast g quiet := by
    rintro a _ events rfl
    rfl
  have hquiet : ∀ {a b : Answer}, a = b →
      (p.recast g quiet).answering a [] = (p.answering b []).recast g quiet := by
    rintro a _ rfl
    simp [answering, Outcome.recast]
  -- The changes have been compared above. A question reports nothing, unless it reads a value.
  cases call with
  | set key seed values =>
      exact congrArg (Outcome.map Answer.unit) (h.set_recast g quiet key seed values)
  | setFlags key flags =>
      exact congrArg (Outcome.map Answer.unit) (h.setFlags_recast g quiet key flags)
  | setHostWord key word =>
      exact congrArg (Outcome.map Answer.unit) (h.setHostWord_recast g quiet key word)
  | delete key => exact congrArg (Outcome.map Answer.unit) (h.delete_recast g quiet key)
  | free => exact congrArg (Outcome.map Answer.unit) (h.free_recast g quiet)
  | get key index =>
      unfold perform
      dsimp only
      rw [h.getEvents_recast]
      exact hanswering (by rw [h.get_recast])
  | getAs kind key =>
      unfold perform
      dsimp only
      rw [h.getEvents_recast]
      exact hanswering (by rw [h.getAs_recast])
  | type =>
      unfold perform
      dsimp only
      rw [h.getEvents_recast]
      exact hanswering (by rw [h.type_recast])
  | getAll key => exact hquiet (by rw [h.getAll_recast])
  | probe key index => exact hquiet (by rw [h.probe_recast])
  | numElements key => exact hquiet (by rw [h.numElements_recast])
  | elementSize key index => exact hquiet (by rw [h.elementSize_recast])
  | seedOf key => exact hquiet (by rw [h.seedOf_recast])
  | flagsOf key => exact hquiet (by rw [h.flagsOf_recast])
  | hostWordOf key => exact hquiet (by rw [h.hostWordOf_recast])
  | has key => exact hquiet (by rw [h.has_recast])
  | keys => exact hquiet (congrArg (fun names => Answer.keys (.ok names)) (p.names_recast g quiet))
  | length => exact hquiet (by rw [length_recast])
  | isEmpty => exact hquiet (congrArg (fun n => Answer.truth (n == 0)) (p.length_recast g quiet))
  | isDefunct => exact hquiet rfl
  | views => exact hquiet (by rw [length_recast, isDefunct_recast, h.views_recast])
  | exported order => exact hquiet (by rw [h.exported_recast])
  | describe => cases hcall
  | isDebug => cases hcall

omit h in
/-- A call that asks how the store is built changes nothing and reports nothing. -/
theorem perform_of_isReflective (p : Plant) {call : Call} (hcall : call.isReflective = true) :
    (p.perform call).plant = p ∧ (p.perform call).events = [] := by
  cases call with
  | describe => exact ⟨rfl, rfl⟩
  | isDebug => exact ⟨rfl, rfl⟩
  | _ => cases hcall

/-- Every call leaves the recast plant, and reports what is heard. -/
theorem Hashed.plant_perform_recast (call : Call) :
    (@perform ⟨g⟩ (p.recast g quiet) call).plant = (p.perform call).plant.recast g quiet ∧
      (@perform ⟨g⟩ (p.recast g quiet) call).events = heard quiet (p.perform call).events := by
  cases hcall : call.isReflective with
  | false =>
      rw [h.perform_recast g quiet hcall]
      exact ⟨rfl, rfl⟩
  | true =>
      obtain ⟨hplant, hevents⟩ := p.perform_of_isReflective hcall
      obtain ⟨hplant', hevents'⟩ := @perform_of_isReflective ⟨g⟩ (p.recast g quiet) call hcall
      rw [hplant, hevents, hplant', hevents', heard_nil]
      exact ⟨rfl, rfl⟩

/-- Every call leaves a plant whose leaves store the hashes of their names. -/
theorem Hashed.perform (call : Call) : (p.perform call).plant.Hashed :=
  h.of_recast (fun p => (p.perform call).plant)
    (h.plant_perform_recast KeyHash.hash false call).1

end

end Plant

end PlantStore
