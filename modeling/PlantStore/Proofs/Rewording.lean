import PlantStore.Proofs.Course

/-! # Calls in other words

Two calls may differ in what they say and still come to the same: both do the same to a plant, give
the same answer and wait in the same way. A rewording puts calls into words of which this is known
for every call by itself. What is known of the calls holds then of all that is made up of them: a
reworded session can take place exactly if the session can, all calls come upon the same plants and
get the same answers, and the same plant is left. -/

namespace PlantStore

/-- The same outcome with the events told in another way. -/
def Outcome.retold {α : Type} (f : Event → Event) (o : Outcome α) : Outcome α :=
  { o with events := o.events.map f }

variable [KeyHash]

/-- Other words for calls, under which a call comes to the same on every well-formed plant, marked
or not. -/
structure Rewording where
  call : Call → Call
  /-- The form in which a call waits. -/
  waiting : Waiting → Waiting
  /-- What is reported. -/
  event : Event → Event
  of? {p : Plant} (hp : p.WellFormed) (c : Call) : Stopped.of? p (call c) = Stopped.of? p c
  answerNow {o : Overlap} (ho : o.plant.unmark.WellFormed) (c : Call) :
    o.answerNow (call c) = (o.answerNow c).retold event
  wait? {o : Overlap} (ho : o.plant.unmark.WellFormed) (c : Call) :
    o.wait? (call c) = (o.wait? c).map waiting
  wantsRights (w : Waiting) : (waiting w).wantsRights = w.wantsRights
  marksRoot (w : Waiting) : (waiting w).marksRoot = w.marksRoot
  publishes (w : Waiting) (name : String) : (waiting w).publishes name = w.publishes name
  publish (w : Waiting) (p : Plant) : (waiting w).publish p = w.publish p
  finish (w : Waiting) {seen p : Plant} (hseen : seen.unmark.WellFormed)
    (hp : p.unmark.WellFormed) : (waiting w).finish seen p = w.finish seen p

/-! ### Every step keeps a plant well-formed -/

namespace Overlap

theorem wellFormed_step {o : Overlap} (ho : o.plant.unmark.WellFormed) (s : Step) :
    (o.step s).1.plant.unmark.WellFormed := by
  have hnow (call : Call) : (o.answerNow call).plant.unmark.WellFormed := by
    rw [← plant_answerNow_unmark]
    exact wellFormed_answerNow (o := o.unmark) ho call
  cases s with
  | now call => exact hnow call
  | start call =>
      show (o.start call).plant.unmark.WellFormed
      cases hw : o.wait? call with
      | none =>
          rw [start, hw]
          exact hnow call
      | some w =>
          rw [plant_start_unmark hw]
          exact ho

end Overlap

namespace Rewording

variable (r : Rewording)

/-! ### All that is made up of calls -/

def started : Started → Started
  | .waiting w => .waiting (r.waiting w)
  | .ended answer => .ended answer

def step : Step → Step
  | .now c => .now (r.call c)
  | .start c => .start (r.call c)

def episode : Episode → Episode
  | .alone c => .alone (r.call c)
  | .overlap hold script => .overlap (r.call hold) (script.map r.step)

def overlap (o : Overlap) : Overlap := { o with started := o.started.map r.started }

def part (part : Part) : Part := { part with call := r.call part.call }

/-- The trace with reworded calls and reports. -/
def trace (t : Trace) : Trace :=
  { t with parts := t.parts.map r.part, reports := t.reports.map (List.map r.event) }

/-! ### Who has to wait -/

section

variable (o : Overlap)

theorem waiting_overlap : (r.overlap o).waiting = o.waiting.map r.waiting := by
  rw [Overlap.waiting, Overlap.waiting, overlap, List.filterMap_map, List.map_filterMap]
  refine List.filterMap_congr fun first _ => ?_
  cases first <;> rfl

@[simp] theorem rightsTaken_overlap : (r.overlap o).rightsTaken = o.rightsTaken := by
  have hwants : Waiting.wantsRights ∘ r.waiting = Waiting.wantsRights := funext r.wantsRights
  rw [Overlap.rightsTaken, Overlap.rightsTaken, waiting_overlap, List.any_map, hwants]
  rfl

@[simp] theorem valueAwaited_overlap : (r.overlap o).valueAwaited = o.valueAwaited := by
  funext name
  have hpublishes : Waiting.publishes name ∘ r.waiting = Waiting.publishes name :=
    funext fun w => r.publishes w name
  rw [Overlap.valueAwaited, Overlap.valueAwaited, waiting_overlap, List.any_map, hpublishes]

@[simp] theorem writerTaken_overlap (name : String) :
    (r.overlap o).writerTaken name = o.writerTaken name := by
  rw [Overlap.writerTaken, Overlap.writerTaken, valueAwaited_overlap]
  rfl

theorem readsAwaited_overlap (c : Call) : (r.overlap o).readsAwaited c = o.readsAwaited c := by
  unfold Overlap.readsAwaited
  rw [valueAwaited_overlap]
  rfl

theorem waitingRead_overlap (c : Call) : (r.overlap o).waitingRead c = o.waitingRead c := by
  have hnames : (r.overlap o).namesUpToAwaited = o.namesUpToAwaited := by
    rw [Overlap.namesUpToAwaited, Overlap.namesUpToAwaited, valueAwaited_overlap]
    rfl
  unfold Overlap.waitingRead
  rw [hnames]
  rfl

/-- How a call would wait does not depend on the words of the calls before it. -/
theorem wait?_overlap (c : Call) : (r.overlap o).wait? c = o.wait? c := by
  cases c with
  | set key seed values =>
      show (r.overlap o).waitSet? key seed values = o.waitSet? key seed values
      simp only [Overlap.waitSet?, rightsTaken_overlap, writerTaken_overlap]
      rfl
  | setFlags key flags =>
      show (r.overlap o).waitFlags? key flags = o.waitFlags? key flags
      simp only [Overlap.waitFlags?, writerTaken_overlap]
      rfl
  | delete key =>
      show (r.overlap o).waitDelete? key = o.waitDelete? key
      simp only [Overlap.waitDelete?, rightsTaken_overlap]
      rfl
  | free =>
      show (r.overlap o).waitFree? = o.waitFree?
      simp only [Overlap.waitFree?, rightsTaken_overlap]
      rfl
  | _ => simp only [Overlap.wait?, readsAwaited_overlap, waitingRead_overlap]

/-- No words of the calls before it make a difference to a call that is made at once. -/
theorem answerNow_overlap (c : Call) : (r.overlap o).answerNow c = o.answerNow c := by
  cases c with
  | hostWordOf key =>
      simp only [Overlap.answerNow, valueAwaited_overlap]
      rfl
  | _ => rfl

end

/-! ### Calls by themselves -/

/-- A call by itself is one that is made while nothing is stopped. -/
theorem answerNow_ended (p : Plant) (answer : Answer) (c : Call) :
    (⟨p, .ended answer, []⟩ : Overlap).answerNow c = p.perform c := by
  have hof {p : Plant} (key : String) :
      (⟨p, .ended answer, []⟩ : Overlap).ofLeaf key (fun _ => false) = false := by
    rw [Overlap.ofLeaf]
    split <;> rfl
  -- A call that has ended holds nothing, so no leaf is locked.
  cases c with
  | setHostWord key word =>
      exact if_neg (Bool.eq_false_iff.mp (hof key))
  | hostWordOf key =>
      exact if_neg (Bool.eq_false_iff.mp (hof key))
  | _ => rfl

/-- A reworded call does and answers the same. -/
theorem perform {p : Plant} (hp : p.unmark.WellFormed) (c : Call) :
    p.perform (r.call c) = (p.perform c).retold r.event := by
  have hidle := r.answerNow (o := ⟨p, .ended (.unit (.ok ())), []⟩) hp c
  rwa [answerNow_ended, answerNow_ended] at hidle

/-! ### Steps -/

section

variable {o : Overlap} (ho : o.plant.unmark.WellFormed)

include ho

/-- One reworded step. -/
theorem step_eq (s : Step) :
    (r.overlap o).step (r.step s) = (r.overlap (o.step s).1, (o.step s).2) := by
  cases s with
  | now c =>
      show ({ r.overlap o with plant := ((r.overlap o).answerNow (r.call c)).plant },
        some ((r.overlap o).answerNow (r.call c)).answer) = _
      rw [answerNow_overlap, r.answerNow ho]
      rfl
  | start c =>
      show ((r.overlap o).start (r.call c), none) = (r.overlap (o.start c), none)
      rw [Overlap.start, Overlap.start, wait?_overlap, answerNow_overlap, r.wait? ho,
        r.answerNow ho]
      cases o.wait? c with
      | none =>
          dsimp only [Option.map_none]
          rw [overlap, overlap, List.map_append]
          rfl
      | some w =>
          dsimp only [Option.map_some]
          rw [r.marksRoot, overlap, overlap, List.map_append]
          rfl

theorem next_eq (s : Step) : ((r.overlap o).step (r.step s)).1 = r.overlap (o.step s).1 :=
  congrArg Prod.fst (r.step_eq ho s)

theorem suits_eq (s : Step) : (r.overlap o).suits (r.step s) = o.suits s := by
  cases s with
  | now c =>
      show ((r.overlap o).wait? (r.call c)).isNone = (o.wait? c).isNone
      rw [wait?_overlap, r.wait? ho, Option.isNone_map]
  | start c =>
      show ((r.overlap o).wait? (r.call c)).isSome = (o.wait? c).isSome
      rw [wait?_overlap, r.wait? ho, Option.isSome_map]

/-- A reworded script. -/
theorem steps_eq (script : List Step) :
    (r.overlap o).steps (script.map r.step) =
      (r.overlap (o.steps script).1, (o.steps script).2) := by
  induction script generalizing o with
  | nil => rfl
  | cons s rest ih =>
      rw [List.map_cons, Overlap.steps_cons, Overlap.steps_cons, r.step_eq ho,
        ih (Overlap.wellFormed_step ho s)]

/-- A reworded script suits an overlap exactly if the script does. -/
theorem isFeasible_eq (script : List Step) :
    (r.overlap o).isFeasible (script.map r.step) = o.isFeasible script := by
  induction script generalizing o with
  | nil => rfl
  | cons s rest ih =>
      rw [List.map_cons, Overlap.isFeasible, Overlap.isFeasible, r.suits_eq ho, r.next_eq ho,
        ih (Overlap.wellFormed_step ho s)]

theorem plants_eq (script : List Step) :
    (r.overlap o).plants (script.map r.step) = o.plants script := by
  induction script generalizing o with
  | nil => rfl
  | cons s rest ih =>
      rw [List.map_cons, Overlap.plants, Overlap.plants, r.next_eq ho,
        ih (Overlap.wellFormed_step ho s)]
      rfl

theorem ordinaryParts_eq (script : List Step) (during : List (Option Answer)) :
    (r.overlap o).ordinaryParts (script.map r.step) during =
      (o.ordinaryParts script during).map r.part := by
  induction script generalizing o during with
  | nil => rfl
  | cons s rest ih =>
      cases during with
      | nil => cases s <;> rfl
      | cons answer during =>
          have hrest := ih (Overlap.wellFormed_step ho s) during
          rw [← r.next_eq ho] at hrest
          cases s with
          | now c =>
              cases answer with
              | none => rfl
              | some answer => exact congrArg (List.cons _) hrest
          | start c =>
              cases answer with
              | none => exact hrest
              | some answer => rfl

theorem asked_eq (script : List Step) :
    (r.overlap o).asked (script.map r.step) =
      (o.asked script).map fun ask => (r.call ask.1, ask.2) := by
  induction script generalizing o with
  | nil => rfl
  | cons s rest ih =>
      have hrest := ih (Overlap.wellFormed_step ho s)
      rw [← r.next_eq ho] at hrest
      cases s with
      | now c => exact hrest
      | start c => exact congrArg (List.cons _) hrest

end

/-! ### The end -/

theorem publish_all (p : Plant) (ws : List Waiting) :
    (ws.map r.waiting).foldl Waiting.publish p = ws.foldl Waiting.publish p := by
  have hpublish (p : Plant) (w : Waiting) : (r.waiting w).publish p = w.publish p := r.publish w p
  rw [List.foldl_map]
  simp only [hpublish]

/-- Reworded calls have the same turns. -/
theorem turns_eq (ws : List Waiting) :
    Waiting.turns (ws.map r.waiting) = (Waiting.turns ws).map r.waiting := by
  have hwants : Waiting.wantsRights ∘ r.waiting = Waiting.wantsRights := funext r.wantsRights
  have hleaves : (fun w => !w.wantsRights) ∘ r.waiting = fun w => !w.wantsRights :=
    funext fun w => congrArg _ (r.wantsRights w)
  rw [Waiting.turns, Waiting.turns, List.filter_map, List.filter_map, hwants, hleaves,
    List.map_append]

section

variable {seen p : Plant} (hseen : seen.unmark.WellFormed) (hp : p.unmark.WellFormed)

include hseen hp

theorem serveAll_eq (started : List Started) :
    Overlap.serveAll seen p (started.map r.started) = Overlap.serveAll seen p started := by
  have hmirror : Overlap.Mirrors KeyHash.hash seen seen r.waiting id (fun _ => True)
      fun p => p.unmark.WellFormed :=
    { wantsRights := r.wantsRights
      finish := fun {w _} _ hp => r.finish w hseen hp
      keeps_finish := fun {w p} _ hp =>
        w.finish_plant_unmark seen seen p ▸ Overlap.wellFormed_finish_waiting seen hp w }
  have hstarted : r.started = Started.map r.waiting := by
    funext first
    cases first <;> rfl
  rw [hstarted]
  exact hmirror.serveAll hp fun _ _ => trivial

theorem servings_eq (ws : List Waiting) :
    Overlap.servings seen p (ws.map r.waiting) = Overlap.servings seen p ws := by
  induction ws generalizing p with
  | nil => rfl
  | cons w ws ih =>
      rw [List.map_cons, Overlap.servings, Overlap.servings, r.finish w hseen hp,
        ih (w.finish_plant_unmark seen seen p ▸ Overlap.wellFormed_finish_waiting seen hp w)]

end

section

variable {start : Plant} {hold : Call} {asked : List (Call × Plant)} {o : Overlap}
  (h : o.Sound start hold asked)

include h

/-- A reworded overlap ends in the same way. -/
theorem finish_eq (during : List (Option Answer)) :
    (r.overlap o).finish during = o.finish during := by
  have hpublished := h.wellFormed_published
  rw [← o.unmark_published] at hpublished
  rw [Overlap.finish_eq_serveAll, Overlap.finish_eq_serveAll, waiting_overlap]
  dsimp only [overlap]
  rw [publish_all, r.serveAll_eq hpublished hpublished]

theorem ending_eq : (r.overlap o).ending = o.ending := by
  have hpublished := h.wellFormed_published
  rw [← o.unmark_published] at hpublished
  rw [Overlap.ending, Overlap.ending, waiting_overlap]
  dsimp only [overlap]
  rw [publish_all, turns_eq, r.servings_eq hpublished hpublished]

end

/-! ### Whole overlaps -/

section

variable {p : Plant} (hp : p.WellFormed) {hold : Call} {script : List Step}

include hp

theorem begun_eq (hstops : (Stopped.of? p hold).isSome = true) :
    Overlap.begun p (r.call hold) = r.overlap (Overlap.begun p hold) := by
  obtain ⟨s, hs⟩ := Option.isSome_iff_exists.mp hstops
  rw [Overlap.begun_eq hs, Overlap.begun_eq ((r.of? hp hold).trans hs)]
  rfl

/-- A reworded overlap is admissible exactly if the overlap is. -/
theorem admissible_iff : Overlap.Admissible p (r.call hold) (script.map r.step) ↔
    Overlap.Admissible p hold script := by
  rw [Overlap.Admissible, Overlap.Admissible, r.of? hp]
  refine and_congr_right fun hstops => ?_
  rw [r.begun_eq hp hstops, r.isFeasible_eq (Overlap.begun_sound hp hstops).wellFormed]

omit hp in
theorem startedParts_eq (asked : List (Call × Plant)) (answers : List Answer) :
    Overlap.startedParts (asked.map fun ask => (r.call ask.1, ask.2)) answers =
      (Overlap.startedParts asked answers).map r.part := by
  rw [Overlap.startedParts, Overlap.startedParts, List.zipWith_map_left, List.map_zipWith]
  rfl

variable (hadm : Overlap.Admissible p hold script)

include hadm

theorem last_eq : (Overlap.begun p (r.call hold)).steps (script.map r.step) =
    (r.overlap ((Overlap.begun p hold).steps script).1,
      ((Overlap.begun p hold).steps script).2) := by
  rw [r.begun_eq hp hadm.1, r.steps_eq (Overlap.begun_sound hp hadm.1).wellFormed]

/-- A reworded overlap has the same report. -/
theorem run_eq : Overlap.run p (r.call hold) (script.map r.step) = Overlap.run p hold script := by
  show ((Overlap.begun p (r.call hold)).steps _).1.finish
    ((Overlap.begun p (r.call hold)).steps _).2 = _
  rw [r.last_eq hp hadm, r.finish_eq ((Overlap.begun_sound hp hadm.1).steps hadm.2)]
  rfl

/-- The calls of a reworded overlap get the same answers on the same plants. -/
theorem parts_eq : Overlap.parts p (r.call hold) (script.map r.step) =
    (Overlap.parts p hold script).map r.part := by
  have hbegun := (Overlap.begun_sound hp hadm.1).wellFormed
  rw [Overlap.parts, Overlap.parts, r.run_eq hp hadm, r.begun_eq hp hadm.1,
    r.ordinaryParts_eq hbegun, r.asked_eq hbegun, r.startedParts_eq, List.map_cons, List.map_append]
  rfl

end

/-! ### Sessions -/

section

variable {p : Plant} (hp : p.Reachable)

include hp

theorem admits_iff (e : Episode) : p.Admits (r.episode e) ↔ p.Admits e := by
  cases e with
  | alone c => exact Iff.rfl
  | overlap hold script => exact r.admissible_iff hp.wellFormed

/-- A reworded call by itself does and answers the same. -/
theorem perform_reachable (c : Call) :
    p.perform (r.call c) = (p.perform c).retold r.event := by
  refine r.perform ?_ c
  rw [p.unmark_of_not hp.wellFormed.root_unmarked]
  exact hp.wellFormed

variable {e : Episode} (he : p.Admits e)

include he

theorem after_eq : p.after (r.episode e) = p.after e := by
  cases e with
  | alone c =>
      show (p.perform (r.call c)).plant = _
      rw [r.perform_reachable hp c]
      rfl
  | overlap hold script => exact congrArg Overlap.Report.plant (r.run_eq hp.wellFormed he)

theorem inside_eq : p.inside (r.episode e) = p.inside e := by
  cases e with
  | alone c => rfl
  | overlap hold script =>
      show (Overlap.begun p (r.call hold)).plants _ = _
      rw [r.begun_eq hp.wellFormed he.1,
        r.plants_eq (Overlap.begun_sound hp.wellFormed he.1).wellFormed]
      rfl

theorem closing_eq : p.closing (r.episode e) = p.closing e := by
  cases e with
  | alone c => rfl
  | overlap hold script =>
      show ((Overlap.begun p (r.call hold)).steps _).1.ending = _
      rw [r.last_eq hp.wellFormed he,
        r.ending_eq ((Overlap.begun_sound hp.wellFormed he.1).steps he.2)]
      rfl

end

section

variable {p : Plant} (hp : p.Reachable) {session : List Episode}

include hp

/-- A reworded session can take place exactly if the session can. -/
theorem admitsAll_iff : p.AdmitsAll (session.map r.episode) ↔ p.AdmitsAll session := by
  induction session generalizing p with
  | nil => exact Iff.rfl
  | cons e session ih =>
      refine (and_congr_left' (r.admits_iff hp e)).trans (and_congr_right fun he => ?_)
      rw [r.after_eq hp he]
      exact ih (hp.after he)

variable (hadm : p.AdmitsAll session)

include hadm

/-- The plants in the course of a reworded session are those of the session. -/
theorem course_eq : p.course (session.map r.episode) = p.course session := by
  induction session generalizing p with
  | nil => rfl
  | cons e session ih =>
      rw [List.map_cons, Plant.course, Plant.course, r.inside_eq hp hadm.1,
        r.closing_eq hp hadm.1, r.after_eq hp hadm.1, ih (hp.after hadm.1) hadm.2]

/-- In a reworded session all calls get the same answers on the same plants, the same is reported in
other words, and the same plant is left. -/
theorem trace_eq : p.trace (session.map r.episode) = r.trace (p.trace session) := by
  induction session generalizing p with
  | nil => rfl
  | cons e session ih =>
      -- Induction on the session: the reworded episode leaves the same plant, on which the rest
      -- goes on.
      have hrest := ih (hp.after hadm.1) hadm.2
      cases e with
      | alone c =>
          have hcall := r.perform_reachable hp c
          rw [List.map_cons, episode, Plant.trace_alone, Plant.trace_alone, hcall]
          show (⟨_ :: ((p.after (.alone c)).trace (session.map r.episode)).parts,
            _ :: ((p.after (.alone c)).trace (session.map r.episode)).reports,
            ((p.after (.alone c)).trace (session.map r.episode)).plant⟩ : Trace) = _
          rw [hrest]
          rfl
      | overlap hold script =>
          rw [List.map_cons, episode, Plant.trace_overlap, Plant.trace_overlap,
            r.run_eq hp.wellFormed hadm.1, r.parts_eq hp.wellFormed hadm.1]
          show (⟨_ ++ ((p.after (.overlap hold script)).trace (session.map r.episode)).parts,
            [] :: ((p.after (.overlap hold script)).trace (session.map r.episode)).reports,
            ((p.after (.overlap hold script)).trace (session.map r.episode)).plant⟩ : Trace) = _
          rw [hrest]
          simp only [trace, List.map_append]
          rfl

end

end Rewording

end PlantStore
