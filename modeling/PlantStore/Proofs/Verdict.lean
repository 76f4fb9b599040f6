import PlantStore.Proofs.Overlap.Serializable
import PlantStore.Proofs.Protection.Protected

/-! # The verdict on a write

A write is refused for the first rule that it breaks, and takes effect if it breaks none. Which
rules there are depends on the plant alone: one for a freed plant, four for the leaf of the key,
one for a leaf that is to be made. The rules are stated through what callers can ask of the plant;
that they are tried in this order, whatever else is wrong with the write, is the theorem. -/

namespace PlantStore

/-! ### Rules -/

/-- A rule, and the cause of the refusal if it is broken. -/
structure Rule where
  isBroken : Bool
  cause : StoreError

/-- A refusal for the first rule that is broken, and success if none is. -/
def Rule.judge (rules : List Rule) : Result Unit :=
  match rules.find? Rule.isBroken with
  | some rule => .error rule.cause
  | none => .ok ()

theorem Rule.judge_cons_of_broken {rule : Rule} (h : rule.isBroken = true) (rest : List Rule) :
    judge (rule :: rest) = .error rule.cause := by
  rw [judge, List.find?_cons_of_pos h]

theorem Rule.judge_cons_of_kept {rule : Rule} (h : rule.isBroken = false) (rest : List Rule) :
    judge (rule :: rest) = judge rest := by
  rw [judge, judge, List.find?_cons_of_neg (Bool.eq_false_iff.mp h)]

/-- What a write may be answered with. -/
def writeAnswers : List (Result Unit) :=
  [.ok (), .error .noSuchLeaf, .error .wrongSeedType, .error .immutable, .error .noSuchElement]

namespace Plant

/-- The rules for a write to a leaf with this seed and these flags. -/
def updateRules (atRoot : Bool) (had : Seed) (flags : LeafFlags) (seed : Seed)
    (values : List Value) : List Rule :=
  [⟨had != seed, .wrongSeedType⟩,
    ⟨flags.contains .immutable, .immutable⟩,
    ⟨atRoot && values.length != 1, .noSuchElement⟩,
    ⟨!values.all (·.fits seed), .wrongSeedType⟩]

/-- The rules for a write under a key without a leaf. -/
def insertRules (seed : Seed) (values : List Value) : List Rule :=
  [⟨!seed.isValid, .wrongSeedType⟩, ⟨!values.all (·.fits seed), .wrongSeedType⟩]

/-- The rules for a write, in the order in which they are tried. -/
def writeRules [KeyHash] (p : Plant) (key : String) (seed : Seed) (values : List Value) :
    List Rule :=
  if p.isDefunct then [⟨true, .noSuchLeaf⟩]
  else if p.has key then
    updateRules (leafName key == rootKey) (p.seedOf key) (p.flagsOf key) seed values
  else insertRules seed values

end Plant

/-! ### The elements -/

theorem Element.judge_insertRules (seed : Seed) (values : List Value) :
    (encodeAll seed values).map (fun _ => ()) = Rule.judge (Plant.insertRules seed values) := by
  rw [encodeAll, Plant.insertRules]
  cases hs : seed.isValid with
  | false => rfl
  | true =>
      rw [Rule.judge_cons_of_kept rfl]
      cases values.all (·.fits seed) <;> rfl

/-- Once a leaf has the seed, only the values can still be wrong. -/
theorem Plant.judge_updateRules {leaf : Leaf} (hs : leaf.seed.isValid = true) (atRoot : Bool)
    (seed : Seed) (values : List Value) :
    (renewal atRoot leaf seed values).map (fun _ => ()) =
      Rule.judge (updateRules atRoot leaf.seed leaf.flags seed values) := by
  rw [renewal, updateRules, Leaf.isImmutable]
  -- The rules are tried in the same order on both sides.
  by_cases hseed : leaf.seed = seed
  · rw [if_neg (not_not_intro hseed), Rule.judge_cons_of_kept (by simpa using hseed)]
    cases himmutable : leaf.flags.contains .immutable with
    | true => rfl
    | false =>
        rw [if_neg Bool.false_ne_true, Rule.judge_cons_of_kept rfl]
        cases hlength : atRoot && values.length != 1 with
        | true => rfl
        | false =>
            rw [if_neg Bool.false_ne_true, Rule.judge_cons_of_kept rfl, Element.judge_insertRules,
              insertRules, Rule.judge_cons_of_kept (by rw [← hseed, hs]; rfl)]
  · rw [if_pos hseed, Rule.judge_cons_of_broken (by simpa using hseed)]
    rfl

namespace Plant

variable [KeyHash]

/-! ### The write -/

theorem answer_updateNow {p : Plant} {key : String} {leaf : Leaf}
    (hfind : p.find? key = some leaf) (seed : Seed) (values : List Value) :
    (p.updateNow key seed values).answer =
      (renewal (p.place? key == some .root) leaf seed values).map fun _ => () := by
  cases hr : renewal (p.place? key == some .root) leaf seed values with
  | ok elements => exact congrArg Outcome.answer (updateNow_of_renewal hfind hr)
  | error e => exact congrArg Outcome.answer (updateNow_of_refused hfind hr)

theorem answer_set_of_find?_none {p : Plant} (hd : p.isDefunct = false) {key : String}
    (hfind : p.find? key = none) (seed : Seed) (values : List Value) :
    (p.set key seed values).answer = (Element.encodeAll seed values).map fun _ => () := by
  cases he : Element.encodeAll seed values with
  | ok elements => exact (set_of_encodeAll_ok hd hfind he).1
  | error e => exact (set_of_encodeAll_error hd hfind he).1

/-- A write to a well-formed plant is answered by the first rule that it breaks. -/
theorem WellFormed.answer_set {p : Plant} (h : p.WellFormed) (key : String) (seed : Seed)
    (values : List Value) :
    (p.set key seed values).answer = Rule.judge (p.writeRules key seed values) := by
  rw [writeRules]
  cases hd : p.isDefunct with
  | true => exact (set_of_isDefunct hd key seed values).1
  | false =>
      rw [if_neg Bool.false_ne_true]
      cases hfind : p.find? key with
      | none =>
          rw [answer_set_of_find?_none hd hfind, Element.judge_insertRules,
            has_eq_false_iff.mpr hfind]
          rfl
      | some leaf =>
          have hleaf := h.leaf_wellFormed leaf (h.find?_eq_some_iff.mp hfind).2.1
          -- A caller sees the flag of the leaf, since it is not one of the store's own.
          have hflags : (p.flagsOf key).contains .immutable = leaf.flags.contains .immutable := by
            rw [flagsOf, askOr_of_find?_some hfind]
            exact leaf.visible_immutable
          have hseed : p.seedOf key = leaf.seed := askOr_of_find?_some hfind _ _
          rw [(set_of_find?_some hd hfind seed values).1, answer_updateNow hfind,
            h.place?_beq_root hd, judge_updateRules hleaf.seed_valid,
            has_eq_true_iff.mpr ⟨leaf, hfind⟩, if_pos rfl, updateRules, updateRules, hflags, hseed]

/-! ### The answers there are -/

omit [KeyHash] in
theorem renewal_mem_writeAnswers (atRoot : Bool) (leaf : Leaf) (seed : Seed)
    (values : List Value) :
    (renewal atRoot leaf seed values).map (fun _ => ()) ∈ writeAnswers := by
  rw [renewal, writeAnswers]
  split
  · simp [Except.map]
  split
  · simp [Except.map]
  split
  · simp [Except.map]
  · rw [Element.encodeAll]
    split <;> simp [Except.map]

theorem updateNow_mem_writeAnswers (p : Plant) (key : String) (seed : Seed)
    (values : List Value) : (p.updateNow key seed values).answer ∈ writeAnswers := by
  cases hfind : p.find? key with
  | none =>
      rw [updateNow, update, hfind]
      simp [writeAnswers]
  | some leaf =>
      rw [answer_updateNow hfind]
      exact renewal_mem_writeAnswers _ leaf seed values

/-- Whatever the plant, a write has one of five answers. -/
theorem set_mem_writeAnswers (p : Plant) (key : String) (seed : Seed) (values : List Value) :
    (p.set key seed values).answer ∈ writeAnswers := by
  cases hd : p.isDefunct with
  | true =>
      rw [(set_of_isDefunct hd key seed values).1]
      simp [writeAnswers]
  | false =>
      cases hfind : p.find? key with
      | none =>
          rw [answer_set_of_find?_none hd hfind, Element.encodeAll]
          split <;> simp [writeAnswers, Except.map]
      | some leaf =>
          rw [(set_of_find?_some hd hfind seed values).1]
          exact p.updateNow_mem_writeAnswers key seed values

end Plant

/-! ### Writes in an overlap -/

namespace Overlap

variable [KeyHash]

/-- Whatever the plant on which it is resumed, a stopped write has one of these answers. -/
theorem finish_stopped_mem_writeAnswers {met p q : Plant} {key : String} {seed : Seed}
    {values : List Value} {s : Stopped} (h : s.Holds met p (.set key seed values)) :
    ∃ r ∈ writeAnswers, (s.finish q).1 = .unit r := by
  generalize hcall : Call.set key seed values = call at h
  cases h with
  | reading hplant =>
      subst hcall
      exact ⟨_, met.set_mem_writeAnswers key seed values, rfl⟩
  | listing => cases hcall
  | updating hfind hseed => exact ⟨_, q.updateNow_mem_writeAnswers _ _ _, rfl⟩
  | inserting hfind => exact ⟨_, q.set_mem_writeAnswers _ _ _, rfl⟩

/-- So has a write that waited, at its turn. -/
theorem finish_waiting_mem_writeAnswers {met p seen q : Plant} {key : String} {seed : Seed}
    {values : List Value} {w : Waiting} (h : w.Serves met p (.set key seed values)) :
    ∃ r ∈ writeAnswers, (w.finish seen q).1 = .unit r := by
  generalize hcall : Call.set key seed values = call at h
  cases h with
  | publishing hfind hr => exact ⟨.ok (), by simp [writeAnswers], rfl⟩
  | updating hmet hfind hseed => exact ⟨_, q.updateNow_mem_writeAnswers _ _ _, rfl⟩
  | inserting hfind => exact ⟨_, q.set_mem_writeAnswers _ _ _, rfl⟩
  | reading hread hother =>
      subst hcall
      exact ⟨_, seen.set_mem_writeAnswers key seed values, rfl⟩
  | _ => cases hcall

theorem ordinaryParts_mem_writeAnswers {o : Overlap} {script : List Step} :
    ∀ part ∈ o.ordinaryParts script (o.steps script).2, ∀ key seed values,
      part.call = .set key seed values → ∃ r ∈ writeAnswers, part.answer = .unit r := by
  induction script generalizing o with
  | nil =>
      intro part hpart
      cases hpart
  | cons s rest ih =>
      intro part hpart key seed values hcall
      cases s with
      | now call =>
          rcases List.mem_cons.mp hpart with rfl | hrest
          · obtain rfl : call = .set key seed values := hcall
            exact ⟨_, o.plant.set_mem_writeAnswers key seed values, rfl⟩
          · exact ih part hrest key seed values hcall
      | start call => exact ih part hpart key seed values hcall

theorem servedParts_mem_writeAnswers {p seen q : Plant}
    {served : List (Waiting × Call × Plant)}
    (hserves : ∀ entry ∈ served, entry.1.Serves entry.2.2 p entry.2.1) :
    ∀ entry ∈ servedParts seen q served, ∀ key seed values,
      entry.2.call = .set key seed values → ∃ r ∈ writeAnswers, entry.2.answer = .unit r := by
  induction served generalizing q with
  | nil =>
      intro entry hentry
      cases hentry
  | cons first rest ih =>
      intro entry hentry key seed values hcall
      rcases List.mem_cons.mp hentry with rfl | hrest
      · have hfirst := hserves first List.mem_cons_self
        obtain ⟨w, call, met⟩ := first
        obtain rfl : call = .set key seed values := hcall
        exact finish_waiting_mem_writeAnswers hfirst
      · exact ih (fun other hother => hserves other (List.mem_cons_of_mem _ hother)) entry hrest
          key seed values hcall

/-- No write of an overlap has any other answer than writes that are made by themselves. -/
theorem parts_mem_writeAnswers {p : Plant} (hp : p.WellFormed) {hold : Call}
    {script : List Step} (h : Admissible p hold script) :
    ∀ part ∈ parts p hold script, ∀ key seed values,
      part.call = .set key seed values → ∃ r ∈ writeAnswers, part.answer = .unit r := by
  have hsound := (begun_sound hp h.1).steps h.2
  rw [List.nil_append] at hsound
  let o := ((begun p hold).steps script).1
  have hfinish := hsound.finish_eq ((begun p hold).steps script).2
  intro part hpart key seed values hcall
  rcases List.mem_cons.mp hpart with rfl | hpart
  · obtain rfl : hold = .set key seed values := hcall
    have hanswer : (run p (.set key seed values) script).stopped =
        (o.stopped.finish o.plant.unmark).1 := congrArg Report.stopped hfinish
    rw [hanswer]
    exact finish_stopped_mem_writeAnswers hsound.holds
  rcases List.mem_append.mp hpart with hordinary | hstarted
  · exact ordinaryParts_mem_writeAnswers part hordinary key seed values hcall
  · have hserved := (hsound.startedParts_turns _).subset hstarted
    obtain ⟨entry, hentry, rfl⟩ := List.mem_map.mp hserved
    have hserves := fun other hother => (hsound.turns_served.2 other hother).2.2
    exact servedParts_mem_writeAnswers hserves entry hentry key seed values hcall

end Overlap

/-! ### The theorem -/

namespace Plant

section

variable [KeyHash]

/-- What a write to a reachable plant is answered with: the refusal for the first rule that it
breaks, or success. The typed writes are writes of one value under their seed. Neither by itself
nor in an overlap is a write refused because a leaf is undeletable or locked, or for a version. -/
theorem write_verdict {p : Plant} (h : p.Reachable) :
    (∀ key seed values,
      (p.set key seed values).answer = Rule.judge (p.writeRules key seed values) ∧
      (p.set key seed values).answer ∈ writeAnswers) ∧
    (∀ key v, (p.perform (.setValue key v)).answer =
      .unit (Rule.judge (p.writeRules key v.naturalSeed [v]))) ∧
    (∀ key seed word, (p.perform (.setPointer key seed word)).answer =
      .unit (Rule.judge (p.writeRules key seed [.pointer word]))) ∧
    (∀ hold script, Overlap.Admissible p hold script →
      ∀ part ∈ Overlap.parts p hold script, ∀ key seed values,
        part.call = .set key seed values → ∃ r ∈ writeAnswers, part.answer = .unit r) ∧
    ∀ e ∈ [StoreError.undeletable, .concurrency, .badVersion], .error e ∉ writeAnswers := by
  have hp := h.wellFormed
  refine ⟨?_, ?_, ?_, ?_, by decide⟩
  · intro key seed values
    exact ⟨hp.answer_set key seed values, p.set_mem_writeAnswers key seed values⟩
  · intro key v
    exact congrArg Answer.unit (hp.answer_set key v.naturalSeed [v])
  · intro key seed word
    exact congrArg Answer.unit (hp.answer_set key seed [.pointer word])
  · intro hold script hadm
    exact Overlap.parts_mem_writeAnswers hp hadm

end

/-- Writes that break several rules at once. -/
theorem write_verdict_of_many_faults :
    let p := ((Plant.make 7 false).run
      [.set "a" .int [.int 1], .setFlags "a" .immutable, .setFlags "" .empty]).1
    p.Reachable ∧
      (p.set "a" .double [.string "x"]).answer = .error .wrongSeedType ∧
      (p.set "a" .int [.string "x"]).answer = .error .immutable ∧
      (p.set "" .int [.string "x", .int 1]).answer = .error .noSuchElement ∧
      (p.set "type" .int [.string "x"]).answer = .error .wrongSeedType ∧
      (p.set "b" ⟨6⟩ [.pointer 1]).answer = .error .wrongSeedType ∧
      (p.set "b" .funcPtr []).answer = .ok () := by
  intro p
  have hp : p.Reachable := .call (.call (.call (.make 7 false) _) _) _
  obtain ⟨hset, -⟩ := write_verdict hp
  refine ⟨hp, ?_, ?_, ?_, ?_, ?_, ?_⟩
  · exact (hset "a" .double [.string "x"]).1.trans (by decide)
  · exact (hset "a" .int [.string "x"]).1.trans (by decide)
  · exact (hset "" .int [.string "x", .int 1]).1.trans (by decide)
  · exact (hset "type" .int [.string "x"]).1.trans (by decide)
  · exact (hset "b" ⟨6⟩ [.pointer 1]).1.trans (by decide)
  · exact (hset "b" .funcPtr []).1.trans (by decide)

end Plant
end PlantStore
