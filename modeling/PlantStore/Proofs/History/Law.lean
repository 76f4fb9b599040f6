import Mathlib.Data.List.Induction
import PlantStore.Proofs.History.Follows

/-! # The history law

What the questions about a key answer after a run is told by the calls of the run and their
answers alone: the first write since the last removal of the leaf gives the seed, the last one
the values, and the last changes of flags and of the host's word the rest. -/

namespace PlantStore
namespace Plant

variable [KeyHash]

/-! ### Runs -/

/-- The calls of a run with their answers, the last one first. -/
def history (p : Plant) (calls : List Call) : List Entry :=
  (List.zipWith (fun call outcome => ⟨call, outcome.answer⟩) calls (p.run calls).2).reverse

theorem length_run (p : Plant) (calls : List Call) : (p.run calls).2.length = calls.length := by
  induction calls generalizing p with
  | nil => rfl
  | cons call calls ih => exact congrArg Nat.succ (ih _)

/-- The later calls of a run are made of the plant that the others have left. -/
theorem run_append (p : Plant) (before after : List Call) :
    p.run (before ++ after) =
      (((p.run before).1.run after).1, (p.run before).2 ++ ((p.run before).1.run after).2) := by
  induction before generalizing p with
  | nil => rfl
  | cons first before ih =>
      rw [List.cons_append, run, ih]
      rfl

theorem run_concat (p : Plant) (calls : List Call) (call : Call) :
    p.run (calls ++ [call]) =
      (((p.run calls).1.perform call).plant,
        (p.run calls).2 ++ [(p.run calls).1.perform call]) := by
  rw [run_append]
  rfl

theorem history_concat (p : Plant) (calls : List Call) (call : Call) :
    p.history (calls ++ [call]) =
      ⟨call, ((p.run calls).1.perform call).answer⟩ :: p.history calls := by
  rw [history, run_concat, List.zipWith_append (length_run p calls).symm, List.reverse_append]
  rfl

/-- Every run is followed. -/
theorem Follows.run (type : Int32) (debug : Bool) (calls : List Call) :
    ((Plant.make type debug).run calls).1.Follows type
      ((Plant.make type debug).history calls) := by
  induction calls using List.reverseRecOn with
  | nil => exact Follows.make type debug
  | append_singleton calls call ih =>
      rw [history_concat, run_concat]
      exact ih.perform call

/-! ### What callers see -/

/-- What the questions about a key answer, told by whether the plant has been freed and by the
deeds on the leaf of the key. -/
structure Shows (p : Plant) (key : String) (freed : Bool) (deeds : List Deed) : Prop where
  has_iff : p.has key = true ↔ freed = false ∧ Deed.writes deeds ≠ []
  present : p.has key = true → ∃ made last,
    Deed.first? deeds = some made ∧ deeds.getLast? = some (.wrote made) ∧
    Deed.last? deeds = some last ∧
    p.seedOf key = made.seed ∧
    p.getAll key = .ok last.values ∧
    (∀ index, p.get key index = (last.values[index]?).elim (.error .noSuchElement) .ok) ∧
    p.flagsOf key = Deed.lastFlags deeds ∧
    p.hostWordOf key = .ok (Deed.lastWord deeds)
  absent : p.has key = false →
    p.seedOf key = .invalid ∧
    p.getAll key = .error .noSuchLeaf ∧
    (∀ index, p.get key index = .error .noSuchLeaf) ∧
    p.flagsOf key = .empty ∧
    p.hostWordOf key = .error .noSuchLeaf

section

variable {type : Int32} {history : List Entry} {p : Plant} (h : p.Follows type history)

include h

theorem Follows.shows (key : String) :
    p.Shows key (isFreed history) (tenure type history (leafName key)) := by
  cases hfind : p.find? key with
  | none =>
      have hhas : p.has key = false := has_eq_false_iff.mpr hfind
      refine ⟨?_, ?_, ?_⟩
      · rw [hhas, h.absent key hfind]
        exact ⟨fun hf => absurd hf Bool.false_ne_true, fun hw => absurd rfl hw.2⟩
      · rw [hhas]
        exact fun hf => by cases hf
      · intro _
        exact ⟨askOr_of_find?_none hfind _ _, ask_of_find?_none hfind _,
          fun _ => ask_of_find?_none hfind _, askOr_of_find?_none hfind _ _,
          ask_of_find?_none hfind _⟩
  | some leaf =>
      have hhas : p.has key = true := has_eq_true_iff.mpr ⟨leaf, hfind⟩
      have hrec := h.records key leaf hfind
      obtain ⟨made, hmade, hseed⟩ := hrec.made
      obtain ⟨last, hlast, hholds⟩ := hrec.holds
      refine ⟨?_, ?_, ?_⟩
      · rw [hhas, h.freed, h.wellFormed.isDefunct_of_find? hfind]
        refine ⟨fun _ => ⟨rfl, ?_⟩, fun _ => rfl⟩
        intro hnil
        rw [Deed.last?, hnil] at hlast
        cases hlast
      · intro _
        refine ⟨made, last, Deed.first?_of_getLast? hmade, hmade, hlast, ?_, ?_, ?_, ?_, ?_⟩
        · rw [seedOf, askOr_of_find?_some hfind, hseed]
        · rw [getAll, ask_of_find?_some hfind, hholds.values_eq]
        · intro index
          rw [get, ask_of_find?_some hfind, hholds.valueAt_eq]
        · rw [flagsOf, askOr_of_find?_some hfind, hrec.flags_eq]
        · rw [hostWordOf, ask_of_find?_some hfind, hrec.word_eq]
      · rw [hhas]
        exact fun hf => by cases hf

/-- The chain has a leaf for each name that was written since it was last removed. -/
theorem Follows.mem_chain_iff (name : String) :
    name ∈ p.chain.map Leaf.name ↔
      name ≠ rootKey ∧ isFreed history = false ∧ Deed.writes (tenure type history name) ≠ [] := by
  constructor
  · intro hmem
    obtain ⟨leaf, hleaf, rfl⟩ := List.mem_map.mp hmem
    have hmem' : leaf ∈ p.leaves := List.mem_cons_of_mem _ hleaf
    have hname := h.wellFormed.name_filled hmem'
    have hd : p.isDefunct = false := by
      apply Bool.eq_false_iff.mpr
      intro hdef
      rw [(h.wellFormed.freed hdef).1] at hleaf
      cases hleaf
    have hhas : p.has leaf.name = true := has_eq_true_iff.mpr
      ⟨leaf, h.wellFormed.find?_eq_some_iff.mpr ⟨hd, hmem', hname.symm⟩⟩
    have hshows := (h.shows leaf.name).has_iff.mp hhas
    rw [hname] at hshows
    exact ⟨h.wellFormed.chain_name leaf hleaf, hshows⟩
  · rintro ⟨hroot, hfreed, hwrites⟩
    -- The empty name never has a tenure, since deeds are kept under the name of the root.
    have hfilled : name.isEmpty = false := by
      cases he : name.isEmpty with
      | false => rfl
      | true =>
          rw [String.isEmpty_iff.mp he, tenure_empty] at hwrites
          exact absurd rfl hwrites
    have hname := leafName_of_ne hfilled
    have hhas : p.has name = true := by
      rw [(h.shows name).has_iff, hname]
      exact ⟨hfreed, hwrites⟩
    obtain ⟨leaf, hfind⟩ := has_eq_true_iff.mp hhas
    obtain ⟨-, hmem, hleaf⟩ := h.wellFormed.find?_eq_some_iff.mp hfind
    rw [hname] at hleaf
    rcases List.mem_cons.mp hmem with rfl | hchain
    · exact absurd (hleaf.symm.trans h.wellFormed.root_name) hroot
    · exact List.mem_map.mpr ⟨leaf, hchain, hleaf⟩

end

/-- After every run of calls on a new plant, what callers see is told by the calls and their
answers. A key names a leaf if the plant has not been freed and the leaf was written since its
last removal; the leaf has the seed of the first such write, the values of the last one, and
the flags and the word that were given to it last. The keys are those of these leaves: the
root's, and then the others, the newest first. -/
theorem observed_by_history (type : Int32) (debug : Bool) (calls : List Call) :
    let p := ((Plant.make type debug).run calls).1
    let past := (Plant.make type debug).history calls
    (∀ key, p.Shows key (isFreed past) (tenure type past (leafName key))) ∧
    p.isDefunct = isFreed past ∧
    (isFreed past = true → p.keys = .ok []) ∧
    (isFreed past = false → ∃ names, p.keys = .ok (rootKey :: names) ∧
      (∀ name, name ∈ names ↔ name ≠ rootKey ∧ Deed.writes (tenure type past name) ≠ []) ∧
      NewestFirst type past names) := by
  intro p past
  have h : p.Follows type past := Follows.run type debug calls
  refine ⟨h.shows, h.freed.symm, ?_, ?_⟩
  · intro hfreed
    rw [h.freed] at hfreed
    rw [keys, names, if_pos hfreed]
  · intro hfreed
    have hd : p.isDefunct = false := h.freed.symm.trans hfreed
    refine ⟨p.chain.map Leaf.name, ?_, ?_, h.order⟩
    · rw [keys, names, hd, if_neg Bool.false_ne_true, h.wellFormed.root_name]
    · intro name
      rw [h.mem_chain_iff, hfreed]
      exact ⟨fun ⟨hroot, _, hw⟩ => ⟨hroot, hw⟩, fun ⟨hroot, hw⟩ => ⟨hroot, rfl, hw⟩⟩

end Plant
end PlantStore
