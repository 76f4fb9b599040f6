import PlantStore.Call
import PlantStore.Proofs.Flags

/-! # The mark of a waiting removal

While a removal waits for the readers of the chain, the root carries a mark. No call but the
description of the plant takes notice of it: a call on the unmarked plant has the outcome of the
call on the marked one, with the mark taken off. -/

namespace PlantStore

/-- The leaf without the mark. -/
def Leaf.unmark (leaf : Leaf) : Leaf := { leaf with flags := leaf.flags.remove .removing }

/-- The outcome with the mark taken off the plant. -/
def Outcome.unmark {α : Type} (o : Outcome α) : Outcome α := { o with plant := o.plant.unmark }

namespace Leaf

/-! ### Leaves -/

variable (leaf : Leaf)

@[simp] theorem name_unmark : leaf.unmark.name = leaf.name := rfl

@[simp] theorem seed_unmark : leaf.unmark.seed = leaf.seed := rfl

@[simp] theorem isUndeletable_unmark : leaf.unmark.isUndeletable = leaf.isUndeletable := by
  simp [isUndeletable, unmark]

@[simp] theorem isImmutable_unmark : leaf.unmark.isImmutable = leaf.isImmutable := by
  simp [isImmutable, unmark]

/-- A write asks nothing of a leaf that the mark changes. -/
@[simp] theorem renewal_unmark (atRoot : Bool) (seed : Seed) (values : List Value) :
    Plant.renewal atRoot leaf.unmark seed values = Plant.renewal atRoot leaf seed values := by
  rw [Plant.renewal, Plant.renewal, isImmutable_unmark, seed_unmark]

end Leaf

namespace Plant

variable (p : Plant)

@[simp] theorem root_unmark : p.unmark.root = p.root.unmark := rfl

@[simp] theorem chain_unmark : p.unmark.chain = p.chain := rfl

@[simp] theorem report_unmark (event : Event) : p.unmark.report event = p.report event := rfl

@[simp] theorem unmark_unmark : p.unmark.unmark = p.unmark := by
  have hflags : (p.root.flags.remove .removing).remove .removing =
      p.root.flags.remove .removing := by
    apply LeafFlags.remove_removing_of_not
    simp
  rw [unmark, unmark, hflags]

@[simp] theorem unmark_mark : p.mark.unmark = p.unmark := by
  rw [unmark, mark, unmark, LeafFlags.remove_insert_removing]

/-- A marked plant is its unmarked form with the mark put on. -/
theorem mark_unmark (h : p.root.flags.contains .removing = true) : p.unmark.mark = p := by
  rw [mark, unmark, LeafFlags.insert_remove_removing h]

theorem unmark_of_not (h : p.root.flags.contains .removing = false) : p.unmark = p := by
  rw [unmark, LeafFlags.remove_removing_of_not h]

@[simp] theorem isDefunct_unmark : p.unmark.isDefunct = p.isDefunct := by
  simp [isDefunct, Leaf.unmark]

@[simp] theorem names_unmark : p.unmark.names = p.names := by
  rw [names, names, isDefunct_unmark]
  rfl

@[simp] theorem length_unmark : p.unmark.length = p.length := by
  rw [length, length, isDefunct_unmark]
  rfl

variable [KeyHash]

/-! ### Searching -/

@[simp] theorem place?_unmark (key : String) : p.unmark.place? key = p.place? key := by
  rw [place?, place?, isDefunct_unmark]
  rfl

/-- A search finds the same leaf, but for the mark. -/
theorem find?_unmark (key : String) :
    p.unmark.find? key = p.find? key ∨
      ∃ leaf, p.find? key = some leaf ∧ p.unmark.find? key = some leaf.unmark := by
  rw [find?, find?, place?_unmark]
  cases p.place? key with
  | none => exact .inl rfl
  | some place =>
      cases place with
      | root => exact .inr ⟨p.root, rfl, rfl⟩
      | link index => exact .inl rfl

@[simp] theorem has_unmark (key : String) : p.unmark.has key = p.has key := by
  rw [has, has]
  obtain h | ⟨leaf, hfind, hmarked⟩ := p.find?_unmark key
  · rw [h]
  · rw [hfind, hmarked]
    rfl

theorem ask_unmark {α : Type} {question : Leaf → Result α}
    (hq : ∀ leaf, question (Leaf.unmark leaf) = question leaf) (key : String) :
    p.unmark.ask key question = p.ask key question := by
  rw [ask, ask]
  obtain h | ⟨leaf, hfind, hmarked⟩ := p.find?_unmark key
  · rw [h]
  · rw [hfind, hmarked]
    exact hq leaf

theorem askOr_unmark {α : Type} {question : Leaf → α}
    (hq : ∀ leaf, question (Leaf.unmark leaf) = question leaf) (key : String) (absent : α) :
    p.unmark.askOr key absent question = p.askOr key absent question := by
  rw [askOr, askOr]
  obtain h | ⟨leaf, hfind, hmarked⟩ := p.find?_unmark key
  · rw [h]
  · rw [hfind, hmarked]
    exact hq leaf

@[simp] theorem get_unmark (key : String) (index : Nat) :
    p.unmark.get key index = p.get key index :=
  p.ask_unmark (fun _ => rfl) key

@[simp] theorem getAll_unmark (key : String) : p.unmark.getAll key = p.getAll key :=
  p.ask_unmark (fun _ => rfl) key

@[simp] theorem probe_unmark (key : String) (index : Nat) :
    p.unmark.probe key index = p.probe key index :=
  p.ask_unmark (fun _ => rfl) key

@[simp] theorem numElements_unmark (key : String) :
    p.unmark.numElements key = p.numElements key :=
  p.askOr_unmark (fun _ => rfl) key 0

@[simp] theorem elementSize_unmark (key : String) (index : Nat) :
    p.unmark.elementSize key index = p.elementSize key index :=
  p.askOr_unmark (fun _ => rfl) key 0

@[simp] theorem seedOf_unmark (key : String) : p.unmark.seedOf key = p.seedOf key := by
  apply p.askOr_unmark
  intro leaf
  rfl

@[simp] theorem flagsOf_unmark (key : String) : p.unmark.flagsOf key = p.flagsOf key := by
  apply p.askOr_unmark
  intro leaf
  exact LeafFlags.visible_remove_removing leaf.flags

@[simp] theorem hostWordOf_unmark (key : String) : p.unmark.hostWordOf key = p.hostWordOf key :=
  p.ask_unmark (fun _ => rfl) key

@[simp] theorem getAs_unmark (kind : ValueKind) (key : String) :
    p.unmark.getAs kind key = p.getAs kind key := by
  rw [getAs, getAs, get_unmark]

@[simp] theorem type_unmark : p.unmark.type = p.type := by
  rw [type, type, get_unmark]

@[simp] theorem getEvents_unmark (key : String) (index : Nat) :
    p.unmark.getEvents key index = p.getEvents key index := by
  rw [getEvents, getEvents]
  obtain h | ⟨leaf, hfind, hmarked⟩ := p.find?_unmark key
  · rw [h]
    rfl
  · rw [hfind, hmarked]
    rfl

@[simp] theorem view_unmark (key : String) : p.unmark.view key = p.view key := by
  simp [view]

@[simp] theorem views_unmark : p.unmark.views = p.views := by
  rw [views, views, names_unmark]
  exact List.map_congr_left fun key _ => p.view_unmark key

@[simp] theorem entriesOf_unmark (keys : List String) :
    p.unmark.entriesOf keys = p.entriesOf keys := by
  simp [entriesOf]

@[simp] theorem exported_unmark (order : ExportOrder) :
    p.unmark.exported order = p.exported order := by
  simp [exported, entries]

/-! ### Writing -/

theorem modify_unmark {f : Leaf → Leaf} (hf : ∀ leaf, (f leaf).unmark = f leaf.unmark)
    (key : String) : p.unmark.modify key f = (p.modify key f).unmark := by
  rw [modify, modify, place?_unmark]
  cases p.place? key with
  | none => rfl
  | some place =>
      cases place with
      | root => exact congrArg (fun root => { p with root := root }) (hf p.root).symm
      | link index => rfl

theorem publish_unmark (key : String) (elements : List Element) :
    p.unmark.publish key elements = (p.publish key elements).unmark := by
  apply p.modify_unmark
  intro leaf
  rfl

theorem update_unmark (key : String) (seed : Seed) (values : List Value) :
    p.unmark.update key seed values = (p.update key seed values).map unmark := by
  rw [update, update, place?_unmark]
  simp only [publish_unmark]
  obtain h | ⟨leaf, hfind, hmarked⟩ := p.find?_unmark key
  · rw [h]
    cases p.find? key with
    | none => rfl
    | some leaf =>
        dsimp only
        cases renewal (p.place? key == some .root) leaf seed values <;> rfl
  · rw [hfind, hmarked]
    simp only [Leaf.renewal_unmark]
    cases renewal (p.place? key == some .root) leaf seed values <;> rfl

theorem updateNow_unmark (key : String) (seed : Seed) (values : List Value) :
    p.unmark.updateNow key seed values = (p.updateNow key seed values).unmark := by
  rw [updateNow, updateNow, update_unmark]
  cases p.update key seed values <;> rfl

theorem store_unmark (key : String) (seed : Seed) (values : List Value) :
    p.unmark.store key seed values =
      (p.store key seed values).map fun (after, events) => (after.unmark, events) := by
  rw [store, store, isDefunct_unmark, has_unmark, update_unmark]
  cases p.isDefunct with
  | true => rfl
  | false =>
      cases p.has key with
      | true => cases p.update key seed values <;> rfl
      | false =>
          show (p.unmark.insert key seed values).map _ = ((p.insert key seed values).map _).map _
          rw [insert, insert]
          cases Element.encodeAll seed values <;> rfl

theorem set_unmark (key : String) (seed : Seed) (values : List Value) :
    p.unmark.set key seed values = (p.set key seed values).unmark := by
  rw [set, set, store_unmark]
  cases p.store key seed values <;> rfl

theorem change_unmark {f : Leaf → Leaf} (hf : ∀ leaf, (f leaf).unmark = f leaf.unmark)
    (key : String) : p.unmark.change key f = (p.change key f).unmark := by
  rw [change, change, has_unmark, p.modify_unmark hf]
  cases p.has key <;> rfl

theorem setFlags_unmark (key : String) (flags : LeafFlags) :
    p.unmark.setFlags key flags = (p.setFlags key flags).unmark := by
  apply p.change_unmark
  intro leaf
  rw [Leaf.unmark, ← LeafFlags.replaceVisible_remove_removing]
  rfl

theorem setHostWord_unmark (key : String) (word : UInt64) :
    p.unmark.setHostWord key word = (p.setHostWord key word).unmark := by
  apply p.change_unmark
  intro leaf
  rfl

/-! ### Removing -/

omit [KeyHash] in
theorem removeAt_unmark (index : Nat) :
    p.unmark.removeAt index = (p.removeAt index).unmark := by
  rw [removeAt, removeAt, chain_unmark]
  cases p.chain[index]? with
  | none => rfl
  | some leaf => cases hu : leaf.isUndeletable <;> simp only [hu] <;> rfl

omit [KeyHash] in
theorem reportDeleted_unmark (key : String) (removal : Outcome (Result Unit)) :
    p.unmark.reportDeleted key removal.unmark = (p.reportDeleted key removal).unmark := by
  obtain ⟨answer, plant, events⟩ := removal
  cases answer <;> rfl

theorem delete_unmark (key : String) : p.unmark.delete key = (p.delete key).unmark := by
  rw [delete, delete, place?_unmark]
  cases p.place? key with
  | none => rfl
  | some place =>
      cases place with
      | root => rfl
      | link index =>
          show p.unmark.reportDeleted key (p.unmark.removeAt index) =
            (p.reportDeleted key (p.removeAt index)).unmark
          rw [removeAt_unmark, reportDeleted_unmark]

theorem deleteAfterWait_unmark (key : String) :
    p.unmark.deleteAfterWait key = (p.deleteAfterWait key).unmark := by
  rw [deleteAfterWait, deleteAfterWait, chainIndex?, chain_unmark, ← chainIndex?]
  cases p.chainIndex? key with
  | none => rfl
  | some index =>
      show p.unmark.reportDeleted key (p.unmark.removeAt index) =
        (p.reportDeleted key (p.removeAt index)).unmark
      rw [removeAt_unmark, reportDeleted_unmark]

omit [KeyHash] in
theorem bury_unmark : p.unmark.bury = p.bury.unmark := by
  rw [bury, bury, unmark, unmark]
  dsimp only
  rw [LeafFlags.insert_defunct_remove_removing]

theorem freeFrom_unmark (start : Nat) : p.unmark.freeFrom start = (p.freeFrom start).unmark := by
  have hsweep : p.unmark.sweep start = (p.sweep start).unmark := rfl
  have hevents : p.unmark.sweepEvents start = p.sweepEvents start := rfl
  simp only [freeFrom, hsweep, hevents, chain_unmark, root_unmark, Leaf.isUndeletable_unmark,
    getEvents_unmark, type_unmark, report_unmark, bury_unmark]
  cases (!(p.sweep start).chain.isEmpty) with
  | true => rfl
  | false => cases (p.sweep start).root.isUndeletable <;> rfl

theorem freeAfterWait_unmark : p.unmark.freeAfterWait = p.freeAfterWait.unmark := by
  rw [freeAfterWait, freeAfterWait, isDefunct_unmark, freeFrom_unmark]
  cases p.isDefunct <;> rfl

theorem free_unmark : p.unmark.free = p.free.unmark := by
  rw [free, free, freeAfterWait_unmark, root_unmark, Leaf.isUndeletable_unmark]
  cases p.root.isUndeletable <;> rfl

/-! ### Calls -/

/-- The plant after a call is the same with and without the mark, but for the mark. -/
theorem plant_perform_unmark (call : Call) :
    (p.unmark.perform call).plant = (p.perform call).plant.unmark := by
  cases call with
  | set key seed values => exact congrArg Outcome.plant (p.set_unmark key seed values)
  | setFlags key flags => exact congrArg Outcome.plant (p.setFlags_unmark key flags)
  | setHostWord key word => exact congrArg Outcome.plant (p.setHostWord_unmark key word)
  | delete key => exact congrArg Outcome.plant (p.delete_unmark key)
  | free => exact congrArg Outcome.plant p.free_unmark
  | _ => rfl

/-- Every call but the description answers the same with and without the mark. -/
theorem answer_perform_unmark {call : Call} (h : call ≠ .describe) :
    (p.unmark.perform call).answer = (p.perform call).answer := by
  cases call with
  | set key seed values =>
      exact congrArg (fun o => Answer.unit o.answer) (p.set_unmark key seed values)
  | setFlags key flags =>
      exact congrArg (fun o => Answer.unit o.answer) (p.setFlags_unmark key flags)
  | setHostWord key word =>
      exact congrArg (fun o => Answer.unit o.answer) (p.setHostWord_unmark key word)
  | delete key => exact congrArg (fun o => Answer.unit o.answer) (p.delete_unmark key)
  | free => exact congrArg (fun o => Answer.unit o.answer) p.free_unmark
  | describe => exact absurd rfl h
  | keys => exact congrArg (fun names => Answer.keys (.ok names)) p.names_unmark
  | isEmpty => exact congrArg (fun n => Answer.truth (n == 0)) p.length_unmark
  | isDebug => rfl
  | _ => simp [perform, answering]

end Plant
end PlantStore
