import Mathlib.Tactic.TFAE
import PlantStore.Proofs.Course

/-! # A freed plant

What a freed plant answers, call by call, and that no call changes it any more. All calls find
this out by a search, which finds nothing, except two. An insertion does not search again before
it links, so it looks at the mark; and a `free` looks at the flag of the root first, which a
freed plant does not have. -/

namespace PlantStore

/-- What a call answers on a freed plant. -/
def Call.freedAnswer (p : Plant) : Call → Answer
  | set .. | setFlags .. | setHostWord .. | delete _ | free | probe .. =>
    .unit (.error .noSuchLeaf)
  | get .. => .value (.error .noSuchLeaf)
  | getAs .. => .typed (.error .noSuchLeaf)
  | getAll _ => .values (.error .noSuchLeaf)
  | hostWordOf _ => .word (.error .noSuchLeaf)
  | type => .type (.error .noSuchLeaf)
  | numElements _ | elementSize .. | length => .count 0
  | seedOf _ => .seed .invalid
  | flagsOf _ => .flags .empty
  | has _ => .truth false
  | keys => .keys (.ok [])
  | isEmpty | isDefunct => .truth true
  | isDebug => .truth p.isDebug
  | views => .views 0 true []
  | exported _ => .text "\x7b\x7d"
  | describe => .text p.describe

theorem ExportOrder.text_nil (order : ExportOrder) : order.text [] = "\x7b\x7d" := by
  have harrange : order.arrange [] = [] := by
    cases order with
    | chain => rfl
    | sorted => exact List.mergeSort_nil
  rw [text, document, harrange]
  cases order <;> rfl

variable [KeyHash]

namespace Plant

/-! ### How a freed plant is told -/

/-- All that tells a freed plant is told by any of it. -/
theorem tfae_isDefunct {q : Plant} (h : q.unmark.WellFormed) :
    [q.isDefunct = true, q.length = 0, q.isEmpty = true, q.keys = .ok [],
      q.has "type" = false, ∀ key, q.has key = false].TFAE := by
  have hlive (hd : q.isDefunct = false) : q.has "type" = true := by
    rw [← q.has_unmark]
    exact has_eq_true_iff.mpr ⟨_, h.find?_rootKey (q.isDefunct_unmark ▸ hd)⟩
  tfae_have 1 → 6 := fun hd key => has_eq_false_iff.mpr (find?_of_isDefunct hd key)
  tfae_have 6 → 5 := fun hall => hall "type"
  tfae_have 5 → 1 := by
    intro hhas
    cases hd : q.isDefunct with
    | true => rfl
    | false =>
        rw [hlive hd] at hhas
        cases hhas
  tfae_have 1 → 2 := fun hd => if_pos hd
  tfae_have 2 → 3 := fun hlength => beq_iff_eq.mpr hlength
  tfae_have 3 → 4 := by
    intro hempty
    have hlength : q.length = 0 := beq_iff_eq.mp hempty
    rw [length] at hlength
    split at hlength
    next hd => rw [keys, names, if_pos hd]
    next => cases hlength
  tfae_have 4 → 1 := by
    intro hkeys
    cases hd : q.isDefunct with
    | true => rfl
    | false =>
        rw [keys, names, hd] at hkeys
        cases hkeys
  tfae_finish

/-! ### What it answers -/

section

variable {p : Plant} (hd : p.isDefunct = true)

include hd

theorem has_of_isDefunct (key : String) : p.has key = false :=
  has_eq_false_iff.mpr (find?_of_isDefunct hd key)

theorem ask_of_isDefunct {α : Type} (key : String) (question : Leaf → Result α) :
    p.ask key question = .error .noSuchLeaf :=
  ask_of_find?_none (find?_of_isDefunct hd key) question

theorem askOr_of_isDefunct {α : Type} (key : String) (absent : α) (question : Leaf → α) :
    p.askOr key absent question = absent :=
  askOr_of_find?_none (find?_of_isDefunct hd key) absent question

theorem change_of_isDefunct (key : String) (f : Leaf → Leaf) :
    p.change key f = ⟨.error .noSuchLeaf, p, []⟩ := by
  rw [change, has_of_isDefunct hd]
  rfl

omit [KeyHash] in
theorem names_of_isDefunct : p.names = [] := if_pos hd

theorem place?_of_isDefunct (key : String) : p.place? key = none := if_pos hd

theorem delete_of_isDefunct (key : String) : p.delete key = ⟨.error .noSuchLeaf, p, []⟩ := by
  rw [delete, place?_of_isDefunct hd]

/-- The root of a freed plant may go, so a `free` comes as far as the test whether it has gone
already. -/
theorem free_of_isDefunct (hu : p.root.isUndeletable = false) :
    p.free = ⟨.error .noSuchLeaf, p, []⟩ := by
  rw [free, hu, if_neg Bool.false_ne_true, freeAfterWait, if_pos hd]

/-- No call changes a freed plant, and every call is told that there is no leaf. -/
theorem perform_of_isDefunct (hu : p.root.isUndeletable = false) (call : Call) :
    (p.perform call).answer = call.freedAnswer p ∧ (p.perform call).plant = p := by
  have hunit {o : Outcome (Result Unit)} (ha : o.answer = .error .noSuchLeaf) (hp : o.plant = p) :
      (o.map Answer.unit).answer = .unit (.error .noSuchLeaf) ∧ (o.map Answer.unit).plant = p :=
    ⟨congrArg Answer.unit ha, hp⟩
  have hsame {o : Outcome (Result Unit)} (ho : o = ⟨.error .noSuchLeaf, p, []⟩) :
      (o.map Answer.unit).answer = .unit (.error .noSuchLeaf) ∧ (o.map Answer.unit).plant = p :=
    hunit (congrArg Outcome.answer ho) (congrArg Outcome.plant ho)
  -- The question for the description is answered as before: it shows the root, freed or not.
  cases call with
  | set key seed values =>
      obtain ⟨ha, hp⟩ := set_of_isDefunct hd key seed values
      exact hunit ha hp
  | setFlags key flags => exact hsame (change_of_isDefunct hd key _)
  | setHostWord key word => exact hsame (change_of_isDefunct hd key _)
  | delete key => exact hsame (delete_of_isDefunct hd key)
  | free => exact hsame (free_of_isDefunct hd hu)
  | get key index => exact ⟨congrArg Answer.value (ask_of_isDefunct hd key _), rfl⟩
  | getAs kind key =>
      have hget : p.get key 0 = .error .noSuchLeaf := ask_of_isDefunct hd key _
      refine ⟨congrArg Answer.typed ?_, rfl⟩
      rw [getAs, hget]
  | getAll key => exact ⟨congrArg Answer.values (ask_of_isDefunct hd key _), rfl⟩
  | probe key index => exact ⟨congrArg Answer.unit (ask_of_isDefunct hd key _), rfl⟩
  | numElements key => exact ⟨congrArg Answer.count (askOr_of_isDefunct hd key _ _), rfl⟩
  | elementSize key index => exact ⟨congrArg Answer.count (askOr_of_isDefunct hd key _ _), rfl⟩
  | seedOf key => exact ⟨congrArg Answer.seed (askOr_of_isDefunct hd key _ _), rfl⟩
  | flagsOf key => exact ⟨congrArg Answer.flags (askOr_of_isDefunct hd key _ _), rfl⟩
  | hostWordOf key => exact ⟨congrArg Answer.word (ask_of_isDefunct hd key _), rfl⟩
  | has key => exact ⟨congrArg Answer.truth (has_of_isDefunct hd key), rfl⟩
  | keys =>
      refine ⟨congrArg Answer.keys ?_, rfl⟩
      rw [keys, names_of_isDefunct hd]
  | length => exact ⟨congrArg Answer.count (if_pos hd), rfl⟩
  | isEmpty =>
      refine ⟨congrArg Answer.truth ?_, rfl⟩
      rw [isEmpty, length, if_pos hd]
      rfl
  | isDefunct => exact ⟨congrArg Answer.truth hd, rfl⟩
  | isDebug => exact ⟨rfl, rfl⟩
  | type =>
      have hget : p.get rootKey 0 = .error .noSuchLeaf := ask_of_isDefunct hd rootKey _
      refine ⟨congrArg Answer.type ?_, rfl⟩
      rw [type, hget]
  | views =>
      have hlength : p.length = 0 := if_pos hd
      refine ⟨?_, rfl⟩
      show Answer.views p.length p.isDefunct p.views = _
      rw [hlength, hd, views, names_of_isDefunct hd]
      rfl
  | exported order =>
      refine ⟨congrArg Answer.text ?_, rfl⟩
      rw [exported, entries, names_of_isDefunct hd]
      exact order.text_nil
  | describe => exact ⟨rfl, rfl⟩

end

end Plant

end PlantStore
