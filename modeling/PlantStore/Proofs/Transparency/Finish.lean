import PlantStore.Proofs.Transparency.Overlaps

/-! # The end of a recast overlap

A call is stopped inside in the same way on the recast plant, and goes on in the same way, and the
calls that have waited do the same at their turns. So a whole overlap on the recast plant is the
overlap, recast. A waiting read is none that asks how the store is built, since nothing has to be
waited for in order to tell that. -/

namespace PlantStore

theorem Call.not_isReflective_of_readsValues {call : Call} (h : call.readsValues = true) :
    call.isReflective = false := by
  cases call with
  | describe => cases h
  | isDebug => cases h
  | _ => rfl

theorem Call.not_isReflective_of_canStop {call : Call} (h : call.canStop = true) :
    call.isReflective = false := by
  cases call with
  | describe => cases h
  | isDebug => cases h
  | _ => rfl

variable [KeyHash] (g : String → UInt32) (quiet : Bool)

namespace Plant

variable {p : Plant} (h : p.Hashed)

include h

theorem Hashed.unmark : p.unmark.Hashed :=
  h.of_recast Plant.unmark (p.unmark_recast KeyHash.hash false)

theorem Hashed.publish (key : String) (elements : List Element) :
    (p.publish key elements).Hashed :=
  h.of_recast (·.publish key elements) (h.publish_recast KeyHash.hash false key elements)

end Plant

/-! ### Stopped calls -/

namespace Stopped

variable {p : Plant} (h : p.Hashed)

include h

theorem ofSet?_recast (key : String) (seed : Seed) (values : List Value) :
    @ofSet? ⟨g⟩ (p.recast g quiet) key seed values = ofSet? p key seed values := by
  unfold ofSet?
  rw [h.find?_recast, h.place?_recast]
  cases p.find? key <;> rfl

theorem ofRead?_recast (key : String) {copies : Leaf → Bool}
    (hcopies : ∀ leaf : Leaf, copies (leaf.recast g) = copies leaf) (answer : Answer) :
    @ofRead? ⟨g⟩ (p.recast g quiet) key copies answer = ofRead? p key copies answer := by
  unfold ofRead?
  rw [h.find?_recast]
  cases p.find? key with
  | none => rfl
  | some leaf =>
      show (if copies (leaf.recast g) then some (reading leaf.name answer) else none) = _
      rw [hcopies]

/-- A call is stopped in the same way. -/
theorem of?_recast (hold : Call) : @of? ⟨g⟩ (p.recast g quiet) hold = of? p hold := by
  cases hold with
  | set key seed values => exact ofSet?_recast g quiet h key seed values
  | get key index =>
      show @ofRead? ⟨g⟩ (p.recast g quiet) key _ (.value (@Plant.get ⟨g⟩ _ key index)) = _
      rw [h.get_recast]
      exact ofRead?_recast g quiet h key (fun _ => rfl) _
  | getAll key =>
      show @ofRead? ⟨g⟩ (p.recast g quiet) key _ (.values (@Plant.getAll ⟨g⟩ _ key)) = _
      rw [h.getAll_recast]
      exact ofRead?_recast g quiet h key (fun _ => rfl) _
  | _ => rfl

/-- A stopped call does the same when it goes on. -/
theorem finish_recast (s : Stopped) :
    @Stopped.finish ⟨g⟩ (p.recast g quiet) s =
      ((s.finish p).1, (s.finish p).2.recast g quiet) := by
  cases s with
  | reading name answer => rfl
  | ended answer => rfl
  | listing =>
      have hkeys : (p.recast g quiet).keys = p.keys := congrArg Except.ok (p.names_recast g quiet)
      exact congrArg (fun keys => (Answer.keys keys, p.recast g quiet)) hkeys
  | updating name seed values =>
      have hupdate := h.updateNow_recast g quiet name seed values
      exact congrArg (fun o : Outcome (Result Unit) => (Answer.unit o.answer, o.plant)) hupdate
  | inserting key seed values =>
      have hset := h.set_recast g quiet key seed values
      exact congrArg (fun o : Outcome (Result Unit) => (Answer.unit o.answer, o.plant)) hset

theorem hashed_finish (s : Stopped) : (s.finish p).2.Hashed :=
  h.of_recast (fun p => (s.finish p).2) (congrArg Prod.snd (finish_recast KeyHash.hash false h s))

end Stopped

/-! ### Waiting calls -/

namespace Waiting

section

variable {p : Plant} (h : p.Hashed)

include h

theorem publish_recast (w : Waiting) :
    @Waiting.publish ⟨g⟩ (p.recast g quiet) w = (w.publish p).recast g quiet := by
  cases w with
  | publishing name elements => exact h.publish_recast g quiet name elements
  | _ => rfl

theorem hashed_publish (w : Waiting) : (w.publish p).Hashed := by
  cases w with
  | publishing name elements => exact h.publish name elements
  | _ => exact h

theorem publish_all_recast (ws : List Waiting) :
    ws.foldl (@Waiting.publish ⟨g⟩) (p.recast g quiet) =
        (ws.foldl Waiting.publish p).recast g quiet ∧
      (ws.foldl Waiting.publish p).Hashed := by
  induction ws generalizing p with
  | nil => exact ⟨rfl, h⟩
  | cons w ws ih =>
      rw [List.foldl_cons, List.foldl_cons, publish_recast g quiet h]
      exact ih (hashed_publish h w)

end

variable {seen p : Plant} (hseen : seen.Hashed) (h : p.Hashed)

include hseen h

/-- A waiting call does the same at its turn. -/
theorem finish_recast {w : Waiting} (hw : w.ReadsOnly) :
    @Waiting.finish ⟨g⟩ (seen.recast g quiet) (p.recast g quiet) w =
      ((w.finish seen p).1, (w.finish seen p).2.recast g quiet) := by
  have hdone : ∀ {a b : Outcome (Result Unit)}, a = b.recast g quiet →
      finish.done a = ((finish.done b).1, (finish.done b).2.recast g quiet) := by
    rintro a b rfl
    rfl
  cases w with
  | publishing name elements => rfl
  | updating name seed values => exact hdone (h.updateNow_recast g quiet name seed values)
  | flagging name flags => exact hdone (h.setFlags_recast g quiet name flags)
  | inserting key seed values => exact hdone (h.set_recast g quiet key seed values)
  | removing key index =>
      apply hdone
      rw [Plant.unmark_recast, Plant.removeAt_recast, Plant.reportDeleted_recast]
  | deleting key => exact hdone (h.deleteAfterWait_recast g quiet key)
  | sweeping start =>
      apply hdone
      rw [Plant.unmark_recast, h.unmark.freeFrom_recast]
  | freeing => exact hdone (h.freeAfterWait_recast g quiet)
  | reading call =>
      have hcall := Call.not_isReflective_of_readsValues (hw call rfl)
      have hread := congrArg Outcome.answer (hseen.perform_recast g quiet hcall)
      exact congrArg (·, p.recast g quiet) hread
  | exporting order done left =>
      have hentries := hseen.entriesOf_recast g quiet left
      exact congrArg (fun entries => (Answer.text (order.text (done ++ entries)), p.recast g quiet))
        hentries
  | viewing length isDefunct done left =>
      have hviews := hseen.map_view_recast g quiet left
      exact congrArg (fun views => (Answer.views length isDefunct (done ++ views),
        p.recast g quiet)) hviews

theorem hashed_finish {w : Waiting} (hw : w.ReadsOnly) : (w.finish seen p).2.Hashed := by
  have hfinish := congrArg Prod.snd (finish_recast KeyHash.hash false hseen h hw)
  rw [seen.hashed_iff.mp hseen] at hfinish
  exact h.of_recast (fun p => (w.finish seen p).2) hfinish

end Waiting

namespace Overlap

/-- The started calls have the same turns. -/
theorem serveAll_recast {seen p : Plant} (hseen : seen.Hashed) (h : p.Hashed)
    {started : List Started} (hreads : ∀ w, Started.waiting w ∈ started → w.ReadsOnly) :
    @serveAll ⟨g⟩ (seen.recast g quiet) (p.recast g quiet) started =
      ((serveAll seen p started).1, (serveAll seen p started).2.recast g quiet) := by
  have hmirror : Mirrors g seen (seen.recast g quiet) id (·.recast g quiet)
      Waiting.ReadsOnly Plant.Hashed :=
    { wantsRights := fun _ => rfl
      finish := fun hw hp => Waiting.finish_recast g quiet hseen hp hw
      keeps_finish := fun hw hp => Waiting.hashed_finish hseen hp hw }
  have hserved := hmirror.serveAll h hreads
  rwa [Started.map_id] at hserved

/-- The end of an overlap, phase by phase. -/
theorem finish_eq_serveAll (o : Overlap) (during : List (Option Answer)) :
    o.finish during =
      let resumed := o.stopped.finish o.plant
      let published := o.waiting.foldl Waiting.publish resumed.2
      let served := serveAll published published o.started
      ⟨resumed.1, during, served.1, served.2⟩ := rfl

/-- The report on an overlap with the plant recast that is left. -/
def Report.recast (g : String → UInt32) (quiet : Bool) (report : Report) : Report :=
  { report with plant := report.plant.recast g quiet }

/-- An overlap ends in the same way on the recast plant. -/
theorem finish_recast {o : Overlap} (h : o.plant.Hashed) (hreads : ∀ w ∈ o.waiting, w.ReadsOnly)
    (during : List (Option Answer)) :
    @Overlap.finish ⟨g⟩ (o.recast g quiet) during = (o.finish during).recast g quiet := by
  have hpublished := Waiting.publish_all_recast g quiet (Stopped.hashed_finish h o.stopped)
    o.waiting
  have hstarted : ∀ w, Started.waiting w ∈ o.started → w.ReadsOnly := fun w hw =>
    hreads w (List.mem_filterMap.mpr ⟨_, hw, rfl⟩)
  have hresumed := Stopped.finish_recast g quiet h o.stopped
  rw [finish_eq_serveAll, @finish_eq_serveAll ⟨g⟩, plant_recast, stopped_recast, waiting_recast,
    started_recast, hresumed]
  dsimp only
  rw [hpublished.1, serveAll_recast g quiet hpublished.2 hpublished.2 hstarted]
  rfl

/-! ### Whole overlaps -/

/-- A call that asks how the store is built does not wait. -/
theorem not_isReflective_of_mem_asked {o : Overlap} {script : List Step}
    (hfeasible : o.isFeasible script = true) :
    ∀ ask ∈ o.asked script, ask.1.isReflective = false := by
  replace hfeasible := feasible_of_isFeasible hfeasible
  induction hfeasible with
  | nil => exact fun ask hask => by cases hask
  | now hfree hrest ih => exact ih
  | @start o call rest w hw hrest ih =>
      refine List.forall_mem_cons.mpr ⟨?_, ih⟩
      cases call with
      | describe => cases hw
      | isDebug => cases hw
      | _ => rfl

omit [KeyHash] in
theorem startedParts_recast {asked : List (Call × Plant)}
    (hasked : ∀ ask ∈ asked, ask.1.isReflective = false) (answers : List Answer) :
    startedParts (asked.map fun ask => (ask.1, ask.2.recast g quiet)) answers =
      (startedParts asked answers).map (Part.recast g quiet) := by
  rw [startedParts, startedParts, List.zipWith_map_left, List.map_zipWith]
  induction asked generalizing answers with
  | nil => rfl
  | cons ask asked ih =>
      cases answers with
      | nil => rfl
      | cons answer answers =>
          have hfirst : Part.recast g quiet ⟨.started, ask.1, ask.2, answer⟩ =
              ⟨.started, ask.1, ask.2.recast g quiet, answer⟩ :=
            Part.recast_of_not_isReflective g quiet (hasked ask List.mem_cons_self)
          rw [List.zipWith_cons_cons, List.zipWith_cons_cons, hfirst,
            ih fun other hother => hasked other (List.mem_cons_of_mem _ hother)]

section

variable {p : Plant} (h : p.Hashed) {hold : Call}

include h

theorem begun_recast (hstops : (Stopped.of? p hold).isSome = true) :
    @begun ⟨g⟩ (p.recast g quiet) hold = (begun p hold).recast g quiet := by
  obtain ⟨s, hs⟩ := Option.isSome_iff_exists.mp hstops
  rw [begun_eq hs, @begun_eq ⟨g⟩ _ _ s ((Stopped.of?_recast g quiet h hold).trans hs)]
  rfl

theorem hashed_begun (hstops : (Stopped.of? p hold).isSome = true) :
    (begun p hold).plant.Hashed := by
  obtain ⟨s, hs⟩ := Option.isSome_iff_exists.mp hstops
  rw [begun_eq hs]
  exact h

/-- An overlap can take place on the recast plant exactly if it can on the plant. -/
theorem admissible_recast (hold : Call) (script : List Step) :
    @Admissible ⟨g⟩ (p.recast g quiet) hold script ↔ Admissible p hold script := by
  unfold Admissible
  rw [Stopped.of?_recast g quiet h]
  refine and_congr_right fun hstops => ?_
  rw [begun_recast g quiet h hstops, isFeasible_recast g quiet (hashed_begun h hstops)]

variable {script : List Step} (hadm : Admissible p hold script)

include hadm

/-- Before the stopped call goes on, the overlap on the recast plant is the overlap, recast. -/
theorem last_recast :
    (@steps ⟨g⟩ (@begun ⟨g⟩ (p.recast g quiet) hold) script).1 =
        ((begun p hold).steps script).1.recast g quiet ∧
      ((begun p hold).steps script).1.plant.Hashed ∧
      ∀ w ∈ ((begun p hold).steps script).1.waiting, w.ReadsOnly := by
  have hbegun := hashed_begun h hadm.1
  refine ⟨?_, hashed_steps hbegun hadm.2, readsOnly_steps hadm.2 fun w hw => by cases hw⟩
  rw [begun_recast g quiet h hadm.1, steps_recast g quiet hbegun hadm.2]

/-- On the recast plant an overlap has the same report, but for the answers to questions how the
store is built, and the plant that is left is recast. -/
theorem run_recast :
    @run ⟨g⟩ (p.recast g quiet) hold script =
      { (run p hold script).recast g quiet with
        during := (@steps ⟨g⟩ (@begun ⟨g⟩ (p.recast g quiet) hold) script).2 } := by
  obtain ⟨hlast, hhashed, hreads⟩ := last_recast g quiet h hadm
  show @Overlap.finish ⟨g⟩ (@steps ⟨g⟩ (@begun ⟨g⟩ (p.recast g quiet) hold) script).1 _ = _
  rw [hlast, finish_recast g quiet hhashed hreads]
  rfl

/-- All calls of an overlap get the same answers on the recast plant, but for those that ask how the
store is built. -/
theorem parts_recast :
    @parts ⟨g⟩ (p.recast g quiet) hold script =
      (parts p hold script).map (Part.recast g quiet) := by
  have hbegun := hashed_begun h hadm.1
  have hordinary := ordinaryParts_recast g quiet hbegun hadm.2
  have hasked := asked_recast g quiet hbegun hadm.2
  have hheld : Part.recast g quiet ⟨.held, hold, p, (run p hold script).stopped⟩ =
      ⟨.held, hold, p.recast g quiet, (run p hold script).stopped⟩ :=
    Part.recast_of_not_isReflective g quiet (Call.not_isReflective_of_canStop hadm.canStop)
  have hstarted := startedParts_recast g quiet (not_isReflective_of_mem_asked hadm.2)
    (run p hold script).started
  rw [← begun_recast g quiet h hadm.1] at hordinary hasked
  unfold parts
  rw [run_recast g quiet h hadm, List.map_cons, List.map_append, hheld]
  exact congrArg (List.cons _) (congrArg₂ (· ++ ·) hordinary (by rw [← hstarted, hasked]; rfl))

/-- An overlap leaves a plant whose leaves store the hashes of their names. -/
theorem hashed_run : (run p hold script).plant.Hashed :=
  h.of_recast (fun p => (run p hold script).plant)
    (congrArg Report.plant (run_recast KeyHash.hash false h hadm))

end

end Overlap

end PlantStore
