import PlantStore.Proofs.Disjoint.Edit
import PlantStore.Proofs.Freed.Answers

/-! # Writes of a leaf that has just been made

A key without a leaf is answered alike by every question. A write makes the leaf, directly behind
the root, without flags and without a host's word. The next write of the key finds it there: it is
an update, which is accepted under the seed of the leaf and refused under any other. So of several
writes, one after the other, the first decides the seed and the last accepted one the values. -/

namespace PlantStore

/-! ### Writes of one key -/

/-- What a write of a leaf that may be written is answered, by the seed of the leaf. -/
def creationAnswer (seed : Seed) (write : Seed × List Value) : Result Unit :=
  if write.1 = seed ∧ ∀ v ∈ write.2, v.fits seed = true then .ok () else .error .wrongSeedType

theorem accepted_of_creationAnswer {seed : Seed} {write : Seed × List Value}
    (h : creationAnswer seed write = .ok ()) :
    write.1 = seed ∧ ∀ v ∈ write.2, v.fits seed = true := by
  rw [creationAnswer] at h
  split at h
  next haccepted => exact haccepted
  next => cases h

/-- The values that are left when writes have been answered, the first of which are given. -/
def lastCreated (seed : Seed) (values : List Value) (writes : List (Seed × List Value)) :
    List Value :=
  ((writes.filter fun write => creationAnswer seed write = .ok ()).getLast?).elim values Prod.snd

theorem lastCreated_cons (seed : Seed) (values : List Value) (write : Seed × List Value)
    (writes : List (Seed × List Value)) :
    lastCreated seed values (write :: writes) =
      lastCreated seed (if creationAnswer seed write = .ok () then write.2 else values) writes := by
  rw [lastCreated, lastCreated, List.filter_cons]
  by_cases hok : creationAnswer seed write = .ok ()
  · rw [if_pos hok, if_pos (decide_eq_true hok), List.getLast?_cons]
    cases (writes.filter fun write => creationAnswer seed write = .ok ()).getLast? <;> rfl
  · rw [if_neg hok, if_neg (fun hdec => hok (of_decide_eq_true hdec))]

/-- What is left fits the seed if what was there did. -/
theorem fits_lastCreated {seed : Seed} {values : List Value}
    (hfit : ∀ v ∈ values, v.fits seed = true) (writes : List (Seed × List Value)) :
    ∀ v ∈ lastCreated seed values writes, v.fits seed = true := by
  rw [lastCreated]
  cases hlast : (writes.filter fun write => creationAnswer seed write = .ok ()).getLast? with
  | none => exact hfit
  | some write =>
      have hmem := List.mem_filter.mp (List.mem_of_getLast? hlast)
      exact (accepted_of_creationAnswer (of_decide_eq_true hmem.2)).2

/-- Whether a call is a write of elements. -/
def Call.isSet : Call → Bool
  | set .. => true
  | _ => false

variable [KeyHash]

namespace Plant

/-! ### A key without a leaf -/

/-- A key whose search finds no leaf has no place. -/
theorem place?_of_find?_none {p : Plant} {key : String} (h : p.find? key = none) :
    p.place? key = none := by
  rw [find?] at h
  cases hplace : p.place? key with
  | none => rfl
  | some place =>
      rw [hplace] at h
      cases place with
      | root => cases h
      | link index =>
          -- A place in the chain is one at which a leaf stands.
          have hnone : p.chain[index]? = none := h
          rw [place?] at hplace
          split at hplace
          · cases hplace
          split at hplace
          · cases hplace
          dsimp only at hplace
          split at hplace
          · cases hplace
          obtain ⟨i, hi, heq⟩ := Option.map_eq_some_iff.mp hplace
          cases heq
          obtain ⟨hlt, -⟩ := List.findIdx?_eq_some_iff_getElem.mp hi
          rw [List.getElem?_eq_getElem hlt] at hnone
          cases hnone

/-- Every question about a key without a leaf, and every change of it but a write, is answered as
on a plant without any leaf. -/
theorem answer_of_absent {p : Plant} {key : String} (hnone : p.find? key = none) {call : Call}
    (hkey : call.key? = some key) (hset : call.isSet = false) :
    (p.perform call).answer = call.freedAnswer p := by
  have hask {α : Type} (question : Leaf → Result α) : p.ask key question = .error .noSuchLeaf :=
    ask_of_find?_none hnone question
  have haskOr {α : Type} (absent : α) (question : Leaf → α) :
      p.askOr key absent question = absent :=
    askOr_of_find?_none hnone absent question
  have hhas : p.has key = false := has_eq_false_iff.mpr hnone
  have hchange (f : Leaf → Leaf) : (p.change key f).answer = .error .noSuchLeaf := by
    rw [change, hhas]
    rfl
  have hget (index : Nat) : p.get key index = .error .noSuchLeaf := hask _
  cases call with
  | set => cases hset
  | get => cases hkey; exact congrArg Answer.value (hget _)
  | getAs =>
      cases hkey
      refine congrArg Answer.typed ?_
      rw [getAs, hget]
  | getAll => cases hkey; exact congrArg Answer.values (hask _)
  | probe => cases hkey; exact congrArg Answer.unit (hask _)
  | numElements => cases hkey; exact congrArg Answer.count (haskOr _ _)
  | elementSize => cases hkey; exact congrArg Answer.count (haskOr _ _)
  | seedOf => cases hkey; exact congrArg Answer.seed (haskOr _ _)
  | flagsOf => cases hkey; exact congrArg Answer.flags (haskOr _ _)
  | setFlags => cases hkey; exact congrArg Answer.unit (hchange _)
  | hostWordOf => cases hkey; exact congrArg Answer.word (hask _)
  | setHostWord => cases hkey; exact congrArg Answer.unit (hchange _)
  | has => cases hkey; exact congrArg Answer.truth hhas
  | delete =>
      cases hkey
      refine congrArg Answer.unit ?_
      rw [delete, place?_of_find?_none hnone]
  | _ => cases hkey

/-- A write of a key without a leaf is accepted only with values for a leaf of its seed. -/
theorem accepted_of_absent {p : Plant} (hlive : p.isDefunct = false) {key : String}
    (hnone : p.find? key = none) {seed : Seed} {values : List Value}
    (hok : (p.set key seed values).answer = .ok ()) :
    seed.isValid = true ∧ ∀ v ∈ values, v.fits seed = true := by
  cases he : Element.encodeAll seed values with
  | ok elements =>
      obtain ⟨hseed, hfit, -⟩ := Element.encodeAll_eq_ok_iff.mp he
      exact ⟨hseed, hfit⟩
  | error e =>
      rw [(set_of_encodeAll_error hlive hnone he).1] at hok
      cases hok

/-- Which keys have a leaf is told by the names of the chain. -/
theorem Searchable.has_congr {p q : Plant} (hp : p.Searchable) (hq : q.Searchable)
    (hnames : q.chain.map Leaf.name = p.chain.map Leaf.name) (hd : q.isDefunct = p.isDefunct)
    (key : String) : q.has key = p.has key := by
  have hmem : (∀ leaf ∈ q.leaves, leaf.name ≠ leafName key) ↔
      ∀ leaf ∈ p.leaves, leaf.name ≠ leafName key := by
    simp only [leaves, List.forall_mem_cons, hq.root_name, hp.root_name]
    rw [← List.forall_mem_map (f := Leaf.name) (P := (· ≠ leafName key)), hnames,
      List.forall_mem_map]
  rw [Bool.eq_iff_iff, ← Bool.not_eq_false, ← Bool.not_eq_false (b := p.has key), not_iff_not,
    has_eq_false_iff, has_eq_false_iff, hq.find?_eq_none_iff, hp.find?_eq_none_iff, hd, hmem]

/-! ### A write of a leaf that has just been made -/

omit [KeyHash] in
/-- The elements for a write are refused for one cause only if the seed can be a leaf's. -/
theorem encodeAll_of_isValid {seed : Seed} (hseed : seed.isValid = true) (values : List Value) :
    Element.encodeAll seed values =
      if ∀ v ∈ values, v.fits seed = true then .ok (values.map Element.ofValue)
      else .error .wrongSeedType := by
  split
  next hfit => exact Element.encodeAll_eq_ok_iff.mpr ⟨hseed, hfit, rfl⟩
  next hnot =>
    cases he : Element.encodeAll seed values with
    | ok elements => exact absurd (Element.encodeAll_eq_ok_iff.mp he).2.1 hnot
    | error e => rw [Element.encodeAll_eq_error he]

/-- A new leaf of the chain may be written under its seed. -/
theorem renewal_create {seed : Seed} (hseed : seed.isValid = true) (key : String)
    (elements : List Element) (write : Seed × List Value) :
    renewal false (.create key seed elements) write.1 write.2 =
      (creationAnswer seed write).map fun _ => write.2.map Element.ofValue := by
  have himmutable : (Leaf.create key seed elements).isImmutable = false :=
    (by decide : LeafFlags.empty.contains .immutable = false)
  obtain ⟨asked, values⟩ := write
  rw [renewal, creationAnswer, himmutable, if_neg Bool.false_ne_true, Bool.false_and,
    if_neg Bool.false_ne_true]
  by_cases hsame : asked = seed
  · subst hsame
    rw [if_neg (fun hne => hne rfl), encodeAll_of_isValid hseed]
    by_cases hfit : ∀ v ∈ values, v.fits asked = true
    · rw [if_pos hfit, if_pos ⟨rfl, hfit⟩]
      rfl
    · rw [if_neg hfit, if_neg fun h => hfit h.2]
      rfl
  · have hseed' : (Leaf.create key seed elements).seed ≠ asked := Ne.symm hsame
    rw [if_pos hseed', if_neg fun h => hsame h.1]
    rfl

section

variable {q : Plant} (hq : q.WellFormed) (hd : q.isDefunct = false) {key : String}
  (hnone : q.find? key = none) {seed : Seed} (hseed : seed.isValid = true)

include hq hd hnone hseed

/-- The next write of the key finds the leaf that has been made, and is accepted under its seed. -/
theorem WellFormed.set_created {values : List Value} (hfit : ∀ v ∈ values, v.fits seed = true)
    (write : Seed × List Value) :
    let made := q.link (.create key seed (values.map Element.ofValue))
    let left := if creationAnswer seed write = .ok () then write.2 else values
    (made.set key write.1 write.2).answer = creationAnswer seed write ∧
      (made.set key write.1 write.2).plant =
        q.link (.create key seed (left.map Element.ofValue)) ∧
      ∀ v ∈ left, v.fits seed = true := by
  intro made left
  have hencode : Element.encodeAll seed values = .ok (values.map Element.ofValue) :=
    Element.encodeAll_eq_ok_iff.mpr ⟨hseed, hfit, rfl⟩
  have hmade : made.WellFormed := hq.link hd hnone hencode
  have hlive : made.isDefunct = false := hd
  -- A new leaf stands at the front of the chain, where the search for its key ends.
  have hplace : made.place? key = some (.link 0) := by
    refine hmade.place?_eq_link_iff.mpr ⟨hlive, _, rfl, ?_⟩
    rw [Leaf.name_create, hmade.leafName_of_link]
  have hfind : made.find? key = some (.create key seed (values.map Element.ofValue)) := by
    rw [find?, hplace]
    rfl
  have hr : renewal (made.place? key == some .root)
      (.create key seed (values.map Element.ofValue)) write.1 write.2 =
        (creationAnswer seed write).map fun _ => write.2.map Element.ofValue := by
    rw [hplace]
    exact renewal_create hseed key _ write
  obtain ⟨ha, hp⟩ := set_of_find?_some hlive hfind write.1 write.2
  rw [ha, hp]
  cases hanswer : creationAnswer seed write with
  | ok _ =>
      have hleft : left = write.2 := if_pos hanswer
      rw [hanswer] at hr
      rw [updateNow_of_renewal hfind hr, hleft]
      refine ⟨rfl, ?_, ?_⟩
      · rw [publish, modify, hplace]
        rfl
      · exact (accepted_of_creationAnswer hanswer).2
  | error e =>
      have hleft : left = values := if_neg (by rw [hanswer]; exact fun h => by cases h)
      rw [hanswer] at hr
      rw [updateNow_of_refused hfind hr, hleft]
      exact ⟨rfl, rfl, hfit⟩

end

end Plant

namespace Overlap

/-- Writes that have waited to make a leaf are served one after the other on the leaf that has been
made by then. -/
theorem serve_creations (seen : Plant) {q : Plant} (hq : q.WellFormed) (hd : q.isDefunct = false)
    {key : String} (hnone : q.find? key = none) {seed : Seed} (hseed : seed.isValid = true)
    {values : List Value} (hfit : ∀ v ∈ values, v.fits seed = true)
    (writes : List (Seed × List Value)) :
    serve seen (q.link (.create key seed (values.map Element.ofValue)))
        (writes.map fun write => .waiting (.inserting key write.1 write.2)) =
      (writes.map fun write => .unit (creationAnswer seed write),
        q.link (.create key seed ((lastCreated seed values writes).map Element.ofValue))) := by
  induction writes generalizing values with
  | nil => rfl
  | cons write writes ih =>
      obtain ⟨ha, hp, hleft⟩ := hq.set_created hd hnone hseed hfit write
      have hrest := ih hleft
      rw [← lastCreated_cons] at hrest
      rw [List.map_cons, List.map_cons, serve]
      simp only [Waiting.finish, Waiting.finish.done, ha, hp, hrest]

end Overlap

end PlantStore
