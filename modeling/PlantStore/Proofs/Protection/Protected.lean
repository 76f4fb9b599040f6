import PlantStore.Proofs.Protection.Overlap

/-! # Protection

An undeletable leaf outlasts every session in which nobody asks for other flags of it, and keeps
its seed and its flags, and if it is immutable its values as well. The flag protects from the
moment at which it is set: a removal that was started before is refused at its turn. An immutable
root shows one value as long as the plant lives. -/

namespace PlantStore

/-- All calls of an episode ask for allowed flags only. -/
def Episode.Obeys (allowed : String → LeafFlags → Prop) (e : Episode) : Prop :=
  ∀ call ∈ e.calls, call.Obeys allowed

/-- The flags that a call may ask for if it is to leave those of a name alone. -/
def Plant.Sparing (name other : String) (_ : LeafFlags) : Prop := other ≠ name

namespace Leaf

/-- Callers see whether a leaf is undeletable. -/
theorem visible_undeletable (leaf : Leaf) :
    leaf.flags.visible.contains .undeletable = leaf.isUndeletable := by
  simp [isUndeletable]

/-- Callers see whether a leaf is immutable. -/
theorem visible_immutable (leaf : Leaf) :
    leaf.flags.visible.contains .immutable = leaf.isImmutable := by
  simp [isImmutable]

/-- The leaf has the same seed and flags as another, and the same elements if it is immutable. -/
structure Preserves (leaf next : Leaf) : Prop where
  seed : next.seed = leaf.seed
  flags : next.flags = leaf.flags
  elements : leaf.isImmutable = true → next.elements = leaf.elements

theorem Preserves.refl (leaf : Leaf) : leaf.Preserves leaf := ⟨rfl, rfl, fun _ => rfl⟩

theorem Preserves.becomes {leaf next last : Leaf} (h : leaf.Preserves next) {name : String}
    (hbecomes : next.Becomes (Plant.Sparing name name) last) : leaf.Preserves last := by
  cases hbecomes with
  | same => exact h
  | elements elements himmutable =>
      refine ⟨h.seed, h.flags, fun hleaf => ?_⟩
      rw [isImmutable, h.flags, ← isImmutable, hleaf] at himmutable
      cases himmutable
  | flags flags hother => exact absurd rfl hother
  | hostWord word => exact ⟨h.seed, h.flags, h.elements⟩

/-- An immutable leaf keeps its elements as long as it stays immutable. -/
theorem Becomes.of_immutable {leaf next : Leaf} {name : String}
    (himmutable : leaf.isImmutable = true)
    (h : leaf.Becomes (Plant.Granting .immutable name name) next) :
    next.isImmutable = true ∧ next.seed = leaf.seed ∧ next.elements = leaf.elements := by
  cases h with
  | same => exact ⟨himmutable, rfl, rfl⟩
  | elements elements hnot =>
      rw [himmutable] at hnot
      cases hnot
  | flags flags hflags =>
      have hasked := hflags rfl
      rw [LeafFlags.contains_immutable] at hasked
      exact ⟨by simp [isImmutable, hasked], rfl, rfl⟩
  | hostWord word => exact ⟨himmutable, rfl, rfl⟩

end Leaf

section

variable [KeyHash]

/-! ### Effects of a session -/

namespace Overlap

omit [KeyHash] in
/-- A call that can be stopped asks for no flags. -/
theorem obeys_of_canStop {allowed : String → LeafFlags → Prop} {call : Call}
    (h : call.canStop = true) : call.Obeys allowed := by
  rintro key flags rfl
  cases h

section

variable {allowed : String → LeafFlags → Prop} {p : Plant} (hp : p.WellFormed) {hold : Call}
  {script : List Step} (hadm : Admissible p hold script)
  (hscript : ∀ s ∈ script, s.call.Obeys allowed)

include hp hadm hscript

/-- All plants in the course of an overlap come about by effects. -/
theorem effects_begun : ∀ q ∈ (begun p hold).plants script,
    q.unmark.WellFormed ∧ Plant.Effects allowed p q.unmark := by
  have hplants := (begun_sound hp hadm.1).effects_plants hadm.2 hscript
  rw [unmark_begun hp hadm.1] at hplants
  exact hplants

/-- What a whole overlap makes of a plant comes about by effects. -/
theorem effects_run : Plant.Effects allowed p (run p hold script).plant := by
  have hsound := (begun_sound hp hadm.1).steps hadm.2
  have hasked : ∀ ask ∈ [] ++ (begun p hold).asked script, ask.1.Obeys allowed := fun ask hask =>
    hscript (.start ask.1) (start_mem_of_mem_asked ask hask)
  exact (effects_begun hp hadm hscript _ (plant_steps_mem_plants _ script)).2.trans
    (hsound.effects_finish (obeys_of_canStop hadm.canStop) hasked _)

end

end Overlap

namespace Plant

section

variable {allowed : String → LeafFlags → Prop} {p : Plant} (hp : p.Reachable)

include hp

/-- What an episode makes of a plant comes about by effects. -/
theorem Reachable.effects_after {e : Episode} (hadm : p.Admits e) (he : e.Obeys allowed) :
    Effects allowed p (p.after e) := by
  cases e with
  | alone call => exact hp.wellFormed.effects_perform allowed (he call List.mem_cons_self)
  | overlap hold script =>
      refine Overlap.effects_run hp.wellFormed hadm fun s hs => he s.call ?_
      exact List.mem_cons_of_mem _ (List.mem_map_of_mem hs)

theorem Reachable.effects_inside {e : Episode} (hadm : p.Admits e) (he : e.Obeys allowed) :
    ∀ q ∈ p.inside e, q.unmark.WellFormed ∧ Effects allowed p q.unmark := by
  cases e with
  | alone call =>
      intro q hq
      cases hq
  | overlap hold script =>
      refine Overlap.effects_begun hp.wellFormed hadm fun s hs => he s.call ?_
      exact List.mem_cons_of_mem _ (List.mem_map_of_mem hs)

/-- All plants in the course of a session come about by effects. -/
theorem Reachable.effects_moments {session : List Episode} (hadm : p.AdmitsAll session)
    (hsession : ∀ e ∈ session, e.Obeys allowed) :
    ∀ q ∈ p.moments session, q.unmark.WellFormed ∧ Effects allowed p q.unmark := by
  have hstart : p.unmark.WellFormed ∧ Effects allowed p p.unmark := by
    rw [p.unmark_of_not hp.wellFormed.root_unmarked]
    exact ⟨hp.wellFormed, .refl⟩
  -- Induction on the session. The effects of the episodes before come first.
  induction session generalizing p with
  | nil =>
      intro q hq
      obtain rfl := List.mem_singleton.mp hq
      exact hstart
  | cons e session ih =>
      have he := hsession e List.mem_cons_self
      intro q hq
      rcases List.mem_cons.mp hq with rfl | hq
      · exact hstart
      rcases List.mem_append.mp hq with hinside | hlater
      · exact hp.effects_inside hadm.1 he q hinside
      · have hnext := hp.after hadm.1
        have hfirst : (p.after e).unmark.WellFormed ∧
            Effects allowed (p.after e) (p.after e).unmark := by
          rw [(p.after e).unmark_of_not hnext.wellFormed.root_unmarked]
          exact ⟨hnext.wellFormed, .refl⟩
        obtain ⟨hwf, hrest⟩ := ih hnext hadm.2
          (fun e he => hsession e (List.mem_cons_of_mem _ he)) hfirst q hlater
        exact ⟨hwf, (hp.effects_after hadm.1 he).trans hrest⟩

end

/-! ### An undeletable leaf -/

/-- A later form of the plant in which the leaf of a key is still there, with its seed and its
flags, and with its values if it is immutable. -/
structure Keeps (p q : Plant) (key : String) : Prop where
  live : q.isDefunct = false
  has : q.has key = true
  seed : q.seedOf key = p.seedOf key
  flags : q.flagsOf key = p.flagsOf key
  values : (p.flagsOf key).contains .immutable = true → q.getAll key = p.getAll key

/-- A flag that callers see is that of a leaf. -/
theorem find?_of_flagsOf {p : Plant} {key : String} {flag : LeafFlags}
    (hempty : LeafFlags.empty.contains flag = false)
    (h : (p.flagsOf key).contains flag = true) :
    ∃ leaf, p.find? key = some leaf ∧ leaf.flags.visible.contains flag = true := by
  cases hfind : p.find? key with
  | none =>
      rw [flagsOf, askOr_of_find?_none hfind, hempty] at h
      cases h
  | some leaf =>
      rw [flagsOf, askOr_of_find?_some hfind] at h
      exact ⟨leaf, rfl, h⟩

theorem WellFormed.keeps {p q : Plant} (hp : p.WellFormed) (hq : q.unmark.WellFormed)
    {key : String} (h : (p.flagsOf key).contains .undeletable = true)
    (heffects : Effects (Sparing (leafName key)) p q.unmark) : p.Keeps q key := by
  obtain ⟨leaf, hfind, hvisible⟩ := find?_of_flagsOf (by decide) h
  rw [leaf.visible_undeletable] at hvisible
  -- As long as the leaf is undeletable it bears all effects, and it stays undeletable under them.
  have hkept : q.unmark.Bears (leafName key) leaf.Preserves := by
    refine heffects.bears ?_ (fun _ _ hnext => hnext.becomes) (hp.bears_of_find? hfind (.refl leaf))
    intro next hnext
    rw [Leaf.isUndeletable, hnext.flags]
    exact hvisible
  obtain ⟨next, hfound, hpreserves⟩ := hq.find?_of_bears hkept
  have hflags : q.flagsOf key = p.flagsOf key := by
    rw [← q.flagsOf_unmark, flagsOf, flagsOf, askOr_of_find?_some hfound,
      askOr_of_find?_some hfind, hpreserves.flags]
  refine ⟨q.isDefunct_unmark ▸ hkept.1, ?_, ?_, hflags, ?_⟩
  · rw [← q.has_unmark]
    exact has_eq_true_iff.mpr ⟨next, hfound⟩
  · rw [← q.seedOf_unmark, seedOf, seedOf, askOr_of_find?_some hfound,
      askOr_of_find?_some hfind, hpreserves.seed]
  · intro himmutable
    rw [flagsOf, askOr_of_find?_some hfind, leaf.visible_immutable] at himmutable
    rw [← q.getAll_unmark, getAll, getAll, ask_of_find?_some hfound, ask_of_find?_some hfind,
      Leaf.values, Leaf.values, hpreserves.seed, hpreserves.elements himmutable]

/-! ### A flag that is set in an overlap -/

/-- A later form of the plant in which the leaf of a key is undeletable and has the seed that it
had. -/
structure Guarded (p q : Plant) (key : String) : Prop where
  live : q.isDefunct = false
  flags : (q.flagsOf key).contains .undeletable = true
  seed : q.seedOf key = p.seedOf key

theorem WellFormed.guarded {p q : Plant} (hq : q.unmark.WellFormed) {key : String}
    (h : q.unmark.Bears (leafName key) fun leaf =>
      leaf.isUndeletable = true ∧ leaf.seed = p.seedOf key) : p.Guarded q key := by
  obtain ⟨leaf, hfind, hu, hseed⟩ := hq.find?_of_bears h
  refine ⟨q.isDefunct_unmark ▸ h.1, ?_, ?_⟩
  · rw [← q.flagsOf_unmark, flagsOf, askOr_of_find?_some hfind, leaf.visible_undeletable]
    exact hu
  · rw [← q.seedOf_unmark, seedOf, askOr_of_find?_some hfind]
    exact hseed

end Plant

namespace Overlap

/-- A change of flags that has been answered with success has been made. -/
theorem bears_of_setFlags {o : Overlap} (hp : o.plant.unmark.WellFormed) {key : String}
    {flags : LeafFlags} (hflags : flags.contains .undeletable = true)
    (hanswer : (o.answerNow (.setFlags key flags)).answer = .unit (.ok ())) :
    (o.answerNow (.setFlags key flags)).plant.unmark.Bears (leafName key) fun leaf =>
      leaf.isUndeletable = true ∧ leaf.seed = o.plant.seedOf key := by
  have hok : (o.plant.unmark.setFlags key flags).answer = .ok () := by
    have hsame : (o.plant.unmark.perform (.setFlags key flags)).answer =
        (o.plant.perform (.setFlags key flags)).answer :=
      o.plant.answer_perform_unmark (fun hcall => by cases hcall)
    exact Answer.unit.inj (hsame.trans hanswer)
  rw [← plant_answerNow_unmark]
  show (o.plant.unmark.setFlags key flags).plant.Bears _ _
  rw [Plant.setFlags] at hok ⊢
  rcases hp.change_cases key (fun leaf => { leaf with flags := leaf.flags.replaceVisible flags })
    with ⟨-, herror, -⟩ | ⟨leaf, hfind, -, hplant⟩
  · rw [herror] at hok
    cases hok
  · obtain ⟨hd, hmem, hname⟩ := hp.find?_eq_some_iff.mp hfind
    have hcontent := Leaf.isContent_flags flags
    rw [hplant]
    refine ⟨(Plant.isDefunct_alter _ _ hcontent).trans hd, _, List.mem_map_of_mem hmem,
      ((hcontent.alter _).name leaf).trans hname, ?_, ?_⟩
    · rw [LeafFlags.contains_undeletable] at hflags
      rw [Leaf.alter_of_name hname]
      simp [Leaf.isUndeletable, hflags]
    · rw [Leaf.alter_of_name hname, ← o.plant.seedOf_unmark, Plant.seedOf,
        Plant.askOr_of_find?_some hfind]

omit [KeyHash] in
/-- An undeletable leaf keeps its seed, and stays undeletable if all flags asked for it are. -/
theorem bears_after {p q : Plant} {name : String} {seed : Seed}
    (h : p.Bears name fun leaf => leaf.isUndeletable = true ∧ leaf.seed = seed)
    (heffects : Plant.Effects (Plant.Granting .undeletable name) p q) :
    q.Bears name fun leaf => leaf.isUndeletable = true ∧ leaf.seed = seed := by
  refine heffects.bears (fun _ hgood => hgood.1) ?_ h
  rintro leaf next ⟨hu, hseed⟩ hbecomes
  refine ⟨Plant.isUndeletable_of_becomes hu hbecomes, ?_⟩
  cases hbecomes <;> exact hseed

/-- A leaf that is undeletable at the end of the script is so when the overlap is over. -/
theorem bears_run {p : Plant} (hp : p.WellFormed) {hold : Call} {script : List Step}
    (hadm : Admissible p hold script) {name : String} {seed : Seed}
    (h : ((begun p hold).steps script).1.plant.unmark.Bears name fun leaf =>
      leaf.isUndeletable = true ∧ leaf.seed = seed)
    (hasked : ∀ ask ∈ (begun p hold).asked script,
      ask.1.Obeys (Plant.Granting .undeletable name)) :
    (run p hold script).plant.Bears name fun leaf =>
      leaf.isUndeletable = true ∧ leaf.seed = seed :=
  have hsteps := (begun_sound hp hadm.1).steps hadm.2
  bears_after h (hsteps.effects_finish (obeys_of_canStop hadm.canStop) hasked _)

/-- If a leaf is undeletable at the end of the script, every removal that was started is refused,
at whatever point of the script that was. -/
theorem refused_of_bears {p : Plant} (hp : p.WellFormed) {hold : Call} {script : List Step}
    (hadm : Admissible p hold script) {name : String} {seed : Seed}
    (h : ((begun p hold).steps script).1.plant.unmark.Bears name fun leaf =>
      leaf.isUndeletable = true ∧ leaf.seed = seed)
    (hasked : ∀ ask ∈ (begun p hold).asked script,
      ask.1.Obeys (Plant.Granting .undeletable name)) :
    ∀ part ∈ parts p hold script, part.role = .started → part.call.Removes name →
      part.answer = .unit (.error .undeletable) := by
  intro part hpart hrole hremoves
  have hguards : ((begun p hold).steps script).1.plant.unmark.Guards name :=
    ⟨h.1, h.2.imp fun leaf hleaf => ⟨hleaf.1, hleaf.2.1, hleaf.2.2.1⟩⟩
  have hreads := readsOnly_steps hadm.2 (fun w hw => by cases hw)
  -- The other parts are the call that was stopped and the calls that were made meanwhile.
  rcases List.mem_cons.mp hpart with rfl | hpart
  · cases hrole
  rcases List.mem_append.mp hpart with hordinary | hstarted
  · rw [role_of_mem_ordinaryParts part hordinary] at hrole
    cases hrole
  · have hsteps := (begun_sound hp hadm.1).steps hadm.2
    exact hsteps.refused hguards hreads (obeys_of_canStop hadm.canStop) hasked _ part hstarted
      hremoves

/-- From the moment on at which a leaf has been made undeletable in an overlap it is there until
the end, and every removal that is started, before or after, is refused. -/
theorem guarded_of_setFlags {p : Plant} (hp : p.Reachable) {hold : Call} {before after : List Step}
    {key : String} {flags : LeafFlags}
    (hadm : Admissible p hold (before ++ .now (.setFlags key flags) :: after))
    (hanswer : (((begun p hold).steps before).1.answerNow (.setFlags key flags)).answer =
      .unit (.ok ()))
    (hflags : flags.contains .undeletable = true)
    (hlater : ∀ call, Step.now call ∈ after ∨ Step.start call ∈ before ++ after →
      call.Obeys (Plant.Granting .undeletable (leafName key))) :
    let script := before ++ .now (.setFlags key flags) :: after
    let o := ((begun p hold).steps before).1
    (∀ q ∈ (run p hold script).plant :: (o.step (.now (.setFlags key flags))).1.plants after,
      o.plant.Guarded q key) ∧
    ∀ part ∈ parts p hold script, part.role = .started → part.call.Removes (leafName key) →
      part.answer = .unit (.error .undeletable) := by
  intro script o
  have hwf := hp.wellFormed
  have hfeasible := hadm.2
  rw [isFeasible_append, Bool.and_eq_true, isFeasible, Bool.and_eq_true] at hfeasible
  obtain ⟨hbefore, hsuits, hafter⟩ := hfeasible
  have hsound := (begun_sound hwf hadm.1).steps hbefore
  have hnow := hsound.now (Option.isNone_iff_eq_none.mp hsuits)
  -- The flag is on from here, and nothing that follows takes it off.
  have hset := bears_of_setFlags hsound.wellFormed hflags hanswer
  have hsteps : ∀ s ∈ after, s.call.Obeys (Plant.Granting .undeletable (leafName key)) := by
    intro s hs
    cases s with
    | now call => exact hlater call (.inl hs)
    | start call => exact hlater call (.inr (List.mem_append_right _ hs))
  have hasked : ∀ ask ∈ (begun p hold).asked script,
      ask.1.Obeys (Plant.Granting .undeletable (leafName key)) := by
    intro ask hask
    refine hlater ask.1 (.inr ?_)
    rcases List.mem_append.mp (start_mem_of_mem_asked ask hask) with hstart | hstart
    · exact List.mem_append_left _ hstart
    · exact List.mem_append_right _ (List.mem_of_ne_of_mem Step.noConfusion hstart)
  have hplants := hnow.effects_plants hafter hsteps
  have hkept := fun q hq => bears_after hset (hplants q hq).2
  have hend : ((begun p hold).steps script).1 =
      ((o.step (.now (.setFlags key flags))).1.steps after).1 := by
    rw [steps_append, steps_cons]
  have hlast := hkept ((begun p hold).steps script).1.plant (hend ▸ plant_steps_mem_plants _ after)
  refine ⟨?_, refused_of_bears hwf hadm hlast hasked⟩
  intro q hq
  rcases List.mem_cons.mp hq with rfl | hq
  · have hrun := wellFormed_run hwf hadm
    have hunmark := Plant.unmark_of_not _ hrun.root_unmarked
    apply Plant.WellFormed.guarded
    · rw [hunmark]
      exact hrun
    · rw [hunmark]
      exact bears_run hwf hadm hlast hasked
  · exact (hplants q hq).1.guarded (hkept q hq)

end Overlap

namespace Plant

/-! ### An immutable root -/

theorem WellFormed.find?_rootKey {p : Plant} (h : p.WellFormed) (hd : p.isDefunct = false) :
    p.find? rootKey = some p.root :=
  h.find?_eq_some_iff.mpr ⟨hd, List.mem_cons_self, h.root_name.trans leafName_rootKey.symm⟩

/-- As long as it is not freed, a plant with an immutable root gives the same answer to every
question that is settled by the seed and the elements of the root. -/
theorem Reachable.root_kept {p : Plant} (hp : p.Reachable)
    (h : (p.flagsOf rootKey).contains .immutable = true) {session : List Episode}
    (hadm : p.AdmitsAll session)
    (hsession : ∀ e ∈ session, e.Obeys (Granting .immutable rootKey)) :
    ∀ q ∈ p.moments session, q.isDefunct = false →
      q.getAll rootKey = p.getAll rootKey ∧ q.get rootKey 0 = p.get rootKey 0 := by
  have hwf := hp.wellFormed
  obtain ⟨leaf, hfind, hvisible⟩ := find?_of_flagsOf (by decide) h
  have hd := hwf.isDefunct_of_find? hfind
  have hroot := hwf.find?_rootKey hd
  obtain rfl : p.root = leaf := Option.some.inj (hroot.symm.trans hfind)
  rw [p.root.visible_immutable] at hvisible
  intro q hq hlive
  obtain ⟨hqwf, heffects⟩ := hp.effects_moments hadm hsession q hq
  let good : Leaf → Prop := fun leaf =>
    leaf.isImmutable = true ∧ leaf.seed = p.root.seed ∧ leaf.elements = p.root.elements
  -- An immutable root keeps its elements, and nobody may clear the flag.
  have hkeep : ∀ leaf next, good leaf → leaf.Becomes (Granting .immutable rootKey rootKey) next →
      good next := by
    rintro leaf next ⟨himmutable, hseed, helements⟩ hbecomes
    obtain ⟨hstill, hsame, helements'⟩ := hbecomes.of_immutable himmutable
    exact ⟨hstill, hsame.trans hseed, helements'.trans helements⟩
  rcases heffects.root hkeep hwf.root_name ⟨hvisible, rfl, rfl⟩ with
    hfreed | ⟨hstill, -, -, hseed, helements⟩
  · rw [isDefunct_unmark, hlive] at hfreed
    cases hfreed
  · have hfound := hqwf.find?_rootKey (hstill.trans hd)
    rw [← q.getAll_unmark, ← q.get_unmark]
    simp only [getAll, get, ask_of_find?_some hfound, ask_of_find?_some hroot, Leaf.values,
      Leaf.valueAt, hseed, helements, and_self]

theorem get_make (type : Int32) (debug : Bool) :
    (make type debug).get rootKey 0 = .ok (.int type) := by
  rw [get, ask_of_find?_some
    ((WellFormed.make type debug).find?_rootKey (isDefunct_make type debug))]
  exact Element.decode_ofValue (rfl : (Value.int type).fits .int = true)

theorem flagsOf_make (type : Int32) (debug : Bool) :
    ((make type debug).flagsOf rootKey).contains .immutable = true := by
  rw [flagsOf, askOr_of_find?_some
    ((WellFormed.make type debug).find?_rootKey (isDefunct_make type debug))]
  exact (by decide : LeafFlags.immutable.visible.contains .immutable = true)

/-! ### The theorem -/

/-- What the flags of the leaves protect, for every reachable plant and every key. The undeletable
leaf of the key is there in the whole course of every session that leaves its flags alone, with its
seed and flags, and with its values if it is immutable. If the flag is set in the course of an
overlap, it protects from then on, against the removals that were started before as well. An
immutable root has the same value as long as the plant is not freed, so a plant whose root has
never been named by a change of flags tells the type that it was made with. -/
theorem protected_of_reachable {p : Plant} (hp : p.Reachable) (key : String) :
    ((p.flagsOf key).contains .undeletable = true → ∀ session : List Episode,
      p.AdmitsAll session → (∀ e ∈ session, e.Obeys (Sparing (leafName key))) →
      ∀ q ∈ p.moments session, p.Keeps q key) ∧
    (∀ (hold : Call) (before after : List Step) (flags : LeafFlags),
      let script := before ++ .now (.setFlags key flags) :: after
      let o := ((Overlap.begun p hold).steps before).1
      Overlap.Admissible p hold script →
      (o.answerNow (.setFlags key flags)).answer = .unit (.ok ()) →
      flags.contains .undeletable = true →
      (∀ call, Step.now call ∈ after ∨ Step.start call ∈ before ++ after →
        call.Obeys (Granting .undeletable (leafName key))) →
      (∀ q ∈ (Overlap.run p hold script).plant ::
          (o.step (.now (.setFlags key flags))).1.plants after, o.plant.Guarded q key) ∧
      ∀ part ∈ Overlap.parts p hold script, part.role = .started →
        part.call.Removes (leafName key) → part.answer = .unit (.error .undeletable)) ∧
    ((p.flagsOf rootKey).contains .immutable = true → ∀ session : List Episode,
      p.AdmitsAll session → (∀ e ∈ session, e.Obeys (Granting .immutable rootKey)) →
      ∀ q ∈ p.moments session, q.isDefunct = false → q.getAll rootKey = p.getAll rootKey) ∧
    ∀ (type : Int32) (debug : Bool) (session : List Episode),
      (make type debug).AdmitsAll session → (∀ e ∈ session, e.Obeys (Sparing rootKey)) →
      ∀ q ∈ (make type debug).moments session, q.isDefunct = false → q.type = .ok type := by
  refine ⟨?_, ?_, ?_, ?_⟩
  · intro hu session hadm hsession q hq
    obtain ⟨hqwf, heffects⟩ := hp.effects_moments hadm hsession q hq
    exact hp.wellFormed.keeps hqwf hu heffects
  · intro hold before after flags script o hadm hanswer hflags hlater
    exact Overlap.guarded_of_setFlags hp hadm hanswer hflags hlater
  · intro himmutable session hadm hsession q hq hlive
    exact (hp.root_kept himmutable hadm hsession q hq hlive).1
  · intro type debug session hadm hsession q hq hlive
    -- Who spares the flags of the root does not take the flag from it.
    have hgranting : ∀ e ∈ session, e.Obeys (Granting .immutable rootKey) := by
      intro e he call hcall key flags hset hname
      exact absurd hname (hsession e he call hcall key flags hset)
    have hmade := Reachable.make type debug
    have hkept := hmade.root_kept (flagsOf_make type debug) hadm hgranting q hq hlive
    rw [Plant.type, hkept.2, get_make]

end Plant

end

namespace Plant

/-- Removals of an undeletable leaf and of one that becomes undeletable while they wait, and writes
to an immutable root until it is freed. -/
theorem protected_of_racing_removals :
    let p := ((((Plant.make 7 false).perform (.set "a" .int [.int 1])).plant.perform
      (.set "u" .int [.int 2])).plant.perform (.setFlags "u" ⟨3⟩)).plant
    let race : List Episode := [.overlap (.getAll "a") [.start (.delete "a"), .start .free],
      .alone (.delete "u"), .alone (.set "u" .int [.int 5])]
    let script : List Step := [.start (.delete "a"), .now (.setFlags "a" ⟨1⟩), .start .free]
    let writes : List Episode :=
      [.alone (.set "" .int [.int 8]), .overlap (.getAll "") [.start .free]]
    p.Reachable ∧ (∀ q ∈ p.moments race, p.Keeps q "u") ∧
      p.afterAll race ∈ p.moments race ∧ (p.afterAll race).names = ["type", "u"] ∧
      (∀ q ∈ p.moments race, q.isDefunct = false → q.getAll rootKey = p.getAll rootKey) ∧
      (∀ part ∈ Overlap.parts p (.getAll "a") script, part.role = .started →
        part.call.Removes "a" → part.answer = .unit (.error .undeletable)) ∧
      (Overlap.run p (.getAll "a") script).plant.names = ["type", "u", "a"] ∧
      ∀ q ∈ (Plant.make 7 false).moments writes, q.isDefunct = false → q.type = .ok 7 := by
  intro p race script writes
  have hp : p.Reachable := .call (.call (.call (.make 7 false) _) _) _
  -- Neither session has a change of flags.
  have hquiet : ∀ allowed : String → LeafFlags → Prop, ∀ e ∈ race ++ writes, e.Obeys allowed := by
    rintro allowed e he call hcall key flags rfl
    simp only [race, writes, List.cons_append, List.nil_append, List.mem_cons, List.not_mem_nil,
      or_false] at he
    rcases he with rfl | rfl | rfl | rfl | rfl <;> simp [Episode.calls, Step.call] at hcall
  have hrace := fun allowed e he => hquiet allowed e (List.mem_append_left _ he)
  have hwrites := fun allowed e he => hquiet allowed e (List.mem_append_right _ he)
  obtain ⟨hkeeps, -, hroot, -⟩ := protected_of_reachable hp "u"
  obtain ⟨-, hset, -, htype⟩ := protected_of_reachable hp "a"
  have hname : leafName "a" = "a" := by decide
  rw [hname] at hset
  have hguarded := hset (.getAll "a") [.start (.delete "a")] [.start .free] ⟨1⟩ (by decide)
    (by decide) (by decide) (by
      rintro call hcall key flags rfl
      simp at hcall)
  exact ⟨hp, hkeeps (by decide) race (by decide) (hrace _), p.afterAll_mem_moments race, by decide,
    hroot (by decide) race (by decide) (hrace _), hguarded.2, by decide,
    htype 7 false writes (by decide) (hwrites _)⟩

end Plant

end PlantStore
