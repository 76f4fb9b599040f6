import Mathlib.Data.List.Chain
import PlantStore.Proofs.Protection.Protected
import PlantStore.Proofs.Transparency.Trace

/-! # The course of a session

The moments of a session are the plants that a call made at once can come upon. Between the last
of them and the end of an overlap the stopped call goes on, the waiting updates put their
elements in place, and the waiting calls have their turns. The course of a session has the
plants of this end too, so that from one plant to the next there is one turn of one call. What
a turn keeps, the whole course keeps. -/

namespace PlantStore

variable [KeyHash]

/-! ### The plants of the end -/

namespace Overlap

/-- The plants that waiting calls leave when they are served, one after the other. -/
def servings (seen p : Plant) : List Waiting → List Plant
  | [] => []
  | w :: rest => (w.finish seen p).2 :: servings seen (w.finish seen p).2 rest

/-- The plants in the course of the end: what the stopped call leaves when it has gone on, what
the updates leave that have waited for it, and what each of the started calls leaves at its
turn. -/
def ending (o : Overlap) : List Plant :=
  let resumed := (o.stopped.finish o.plant).2
  let published := o.waiting.foldl Waiting.publish resumed
  resumed :: published :: servings published published (Waiting.turns o.waiting)

end Overlap

namespace Plant

/-- The plants in the course of the end of an episode. -/
def closing (p : Plant) : Episode → List Plant
  | .alone _ => []
  | .overlap hold script => ((Overlap.begun p hold).steps script).1.ending

/-- All plants in the course of a session, those of the ends of the overlaps as well. -/
def course (p : Plant) : List Episode → List Plant
  | [] => [p]
  | e :: session => p :: (p.inside e ++ (p.closing e ++ course (p.after e) session))

/-- What one turn of one call can make of a plant, if calls ask for no other flags than those
allowed for each name. -/
inductive Turn (allowed : String → LeafFlags → Prop) (p : Plant) : Plant → Prop
  | stays : Turn allowed p p
  | performs (call : Call) (h : call.Obeys allowed) : Turn allowed p (p.perform call).plant
  | updates (key : String) (seed : Seed) (values : List Value) :
    Turn allowed p (p.updateNow key seed values).plant
  | publishes (ws : List Waiting) : Turn allowed p (ws.foldl Waiting.publish p)
  | removes (index : Nat) : Turn allowed p (p.removeAt index).plant
  | frees (start : Nat) : Turn allowed p (p.freeFrom start).plant

end Plant

/-! ### One turn -/

section

variable {allowed : String → LeafFlags → Prop}

theorem Overlap.turn_answerNow (o : Overlap) {call : Call} (h : call.Obeys allowed) :
    Plant.Turn allowed o.plant (o.answerNow call).plant := by
  cases call with
  | setHostWord key word =>
      rw [answerNow]
      split
      · exact .stays
      · exact .performs _ h
  | hostWordOf key =>
      rw [answerNow]
      split <;> exact .stays
  | _ => exact .performs _ h

theorem Stopped.turn_finish (s : Stopped) (p : Plant) :
    Plant.Turn allowed p (s.finish p).2 := by
  cases s with
  | updating name seed values => exact .updates name seed values
  | inserting key seed values =>
      exact .performs (.set key seed values) fun _ _ hcall => by cases hcall
  | _ => exact .stays

theorem Plant.turn_deleteAfterWait (p : Plant) (key : String) :
    Turn allowed p (p.deleteAfterWait key).plant := by
  rw [deleteAfterWait]
  cases p.chainIndex? key with
  | none => exact .stays
  | some index =>
      rw [reportDeleted_plant]
      exact .removes index

theorem Waiting.turn_finish (seen : Plant) {p : Plant} (hp : p.unmark = p) {w : Waiting}
    (hw : ∀ name flags, w = .flagging name flags → allowed (leafName name) flags) :
    Plant.Turn allowed p (w.finish seen p).2 := by
  cases w with
  | updating name seed values => exact .updates name seed values
  | flagging name flags =>
      refine .performs (.setFlags name flags) fun key other hcall => ?_
      cases hcall
      exact hw name flags rfl
  | inserting key seed values =>
      exact .performs (.set key seed values) fun _ _ hcall => by cases hcall
  | removing key index =>
      show Plant.Turn allowed p (p.reportDeleted key (p.unmark.removeAt index)).plant
      rw [Plant.reportDeleted_plant, hp]
      exact .removes index
  | deleting key => exact p.turn_deleteAfterWait key
  | sweeping start =>
      show Plant.Turn allowed p (p.unmark.freeFrom start).plant
      rw [hp]
      exact .frees start
  | freeing =>
      show Plant.Turn allowed p p.freeAfterWait.plant
      rcases p.freeAfterWait_cases with ⟨-, -, hstays⟩ | ⟨-, hfree⟩
      · rw [hstays]
        exact .stays
      · rw [hfree]
        exact .frees 0
  | _ => exact .stays

end

namespace Overlap

/-! ### The mark -/

/-- The turns come to the same with and without the mark, but for the mark. -/
theorem unmark_servings (seen seen' p : Plant) (ws : List Waiting) :
    (servings seen p ws).map Plant.unmark = servings seen' p.unmark ws := by
  induction ws generalizing p with
  | nil => rfl
  | cons w ws ih =>
      rw [servings, servings, List.map_cons, ih, w.finish_plant_unmark seen seen' p]

/-- What the stopped call leaves when it has gone on, but for the mark. -/
theorem unmark_resumed (o : Overlap) :
    (o.stopped.finish o.plant).2.unmark = (o.stopped.finish o.plant.unmark).2 := by
  rw [o.stopped.finish_unmark]

/-- What the updates leave that have waited for the stopped call, but for the mark. -/
theorem unmark_published (o : Overlap) :
    (o.waiting.foldl Waiting.publish (o.stopped.finish o.plant).2).unmark =
      o.waiting.foldl Waiting.publish (o.stopped.finish o.plant.unmark).2 := by
  rw [← unmark_resumed, publish_all_unmark]

/-- The end of an overlap without the mark. -/
theorem unmark_ending (o : Overlap) :
    o.ending.map Plant.unmark =
      let resumed := (o.stopped.finish o.plant.unmark).2
      let published := o.waiting.foldl Waiting.publish resumed
      resumed :: published :: servings published published (Waiting.turns o.waiting) := by
  simp only [ending, List.map_cons, unmark_resumed, unmark_published]
  rw [unmark_servings, unmark_published]

theorem plants_eq_cons (o : Overlap) (script : List Step) :
    ∃ rest, o.plants script = o.plant :: rest := by
  cases script with
  | nil => exact ⟨[], rfl⟩
  | cons s rest => exact ⟨_, rfl⟩

/-! ### Every plant is well-formed -/

theorem wellFormed_servings (seen : Plant) {p : Plant} (hp : p.WellFormed) (ws : List Waiting) :
    ∀ q ∈ servings seen p ws, q.WellFormed := by
  induction ws generalizing p with
  | nil =>
      intro q hq
      cases hq
  | cons w ws ih =>
      have hnext := wellFormed_finish_waiting seen hp w
      intro q hq
      rcases List.mem_cons.mp hq with rfl | hq
      · exact hnext
      · exact ih hnext q hq

/-- Turns of waiting calls, one after the other, on a plant that is not marked. -/
theorem turns_servings {allowed : String → LeafFlags → Prop} (seen : Plant) {p : Plant}
    (hp : p.WellFormed) {ws : List Waiting} (hws : ∀ w ∈ ws, w.Obeys allowed) {rest : List Plant}
    (hrest : ((serve seen p (ws.map .waiting)).2 :: rest).IsChain (Plant.Turn allowed)) :
    (p :: (servings seen p ws ++ rest)).IsChain (Plant.Turn allowed) := by
  induction ws generalizing p with
  | nil => exact hrest
  | cons w ws ih =>
      have hnext := wellFormed_finish_waiting seen hp w
      have hturn : Plant.Turn allowed p (w.finish seen p).2 :=
        w.turn_finish seen (p.unmark_of_not hp.root_unmarked) (hws w List.mem_cons_self)
      exact List.isChain_cons_cons.mpr
        ⟨hturn, ih hnext (fun u hu => hws u (List.mem_cons_of_mem _ hu)) hrest⟩

section

variable {start : Plant} {hold : Call} {asked : List (Call × Plant)} {o : Overlap}
  (h : o.Sound start hold asked)

include h

theorem Sound.wellFormed_ending : ∀ q ∈ o.ending, q.unmark.WellFormed := by
  intro q hq
  have hmem : q.unmark ∈ o.ending.map Plant.unmark := List.mem_map_of_mem hq
  rw [unmark_ending] at hmem
  rcases List.mem_cons.mp hmem with hresumed | hmem
  · rw [hresumed]
    exact wellFormed_finish_stopped h.wellFormed o.stopped
  rcases List.mem_cons.mp hmem with hpublished | hserved
  · rw [hpublished]
    exact h.wellFormed_published
  · exact wellFormed_servings _ h.wellFormed_published _ _ hserved

variable {allowed : String → LeafFlags → Prop}

/-- The end of an overlap goes turn by turn to the plant that it leaves, from which the rest goes
on. -/
theorem Sound.turns_ending (hasked : ∀ ask ∈ asked, ask.1.Obeys allowed)
    (during : List (Option Answer)) {rest : List Plant}
    (hrest : ((o.finish during).plant :: rest).IsChain fun q r =>
      Plant.Turn allowed q.unmark r.unmark) :
    (o.plant :: (o.ending ++ rest)).IsChain fun q r =>
      Plant.Turn allowed q.unmark r.unmark := by
  have hlast := (o.finish during).plant.unmark_of_not (h.wellFormed_finish during).root_unmarked
  rw [← List.isChain_map, List.map_cons, hlast, h.plant_finish] at hrest
  rw [← List.isChain_map, List.map_cons, List.map_append, unmark_ending]
  refine List.isChain_cons_cons.mpr ⟨o.stopped.turn_finish _, ?_⟩
  have hobeys : ∀ w ∈ Waiting.turns o.waiting, w.Obeys allowed := fun w hw =>
    h.waiting_obeys hasked w (Waiting.mem_turns.mp hw)
  exact List.isChain_cons_cons.mpr
    ⟨.publishes o.waiting, turns_servings _ h.wellFormed_published hobeys hrest⟩

/-- A script goes turn by turn to the last plant, from which the rest goes on. -/
theorem Sound.turns_plants {script : List Step} (hfeasible : o.isFeasible script = true)
    (hscript : ∀ s ∈ script, s.call.Obeys allowed) {rest : List Plant}
    (hrest : ((o.steps script).1.plant :: rest).IsChain fun q r =>
      Plant.Turn allowed q.unmark r.unmark) :
    (o.plants script ++ rest).IsChain fun q r => Plant.Turn allowed q.unmark r.unmark := by
  -- The next plant is the head of the rest of the script.
  have hcons {o : Overlap} {s : Step} {script : List Step}
      (hturn : Plant.Turn allowed o.plant.unmark (o.step s).1.plant.unmark)
      (hlater : ((o.step s).1.plants script ++ rest).IsChain fun q r =>
        Plant.Turn allowed q.unmark r.unmark) :
      (o.plants (s :: script) ++ rest).IsChain fun q r =>
        Plant.Turn allowed q.unmark r.unmark := by
    obtain ⟨tail, htail⟩ := (o.step s).1.plants_eq_cons script
    show (o.plant :: ((o.step s).1.plants script ++ rest)).IsChain _
    rw [htail, List.cons_append] at hlater ⊢
    exact List.isChain_cons_cons.mpr ⟨hturn, hlater⟩
  replace hfeasible := feasible_of_isFeasible hfeasible
  induction hfeasible generalizing asked with
  | nil => exact hrest
  | @now o call script hfree hplays ih =>
      refine hcons ?_ (ih (h.now hfree) (fun s hs => hscript s (List.mem_cons_of_mem _ hs)) hrest)
      show Plant.Turn allowed o.plant.unmark (o.answerNow call).plant.unmark
      rw [← plant_answerNow_unmark]
      exact o.unmark.turn_answerNow (hscript _ List.mem_cons_self)
  | @start o call script w hw hplays ih =>
      refine hcons ?_ (ih (h.started hw) (fun s hs => hscript s (List.mem_cons_of_mem _ hs)) hrest)
      show Plant.Turn allowed o.plant.unmark (o.start call).plant.unmark
      rw [plant_start_unmark hw]
      exact .stays

end

end Overlap

namespace Plant

/-! ### The whole course -/

theorem course_eq_cons (p : Plant) (session : List Episode) :
    ∃ rest, p.course session = p :: rest := by
  cases session with
  | nil => exact ⟨[], rfl⟩
  | cons e session => exact ⟨_, rfl⟩

section

variable (p : Plant) (e : Episode) (session : List Episode)

theorem inside_infix_course : p.inside e <:+: p.course (e :: session) :=
  ⟨[p], p.closing e ++ (p.after e).course session, by simp [course]⟩

theorem closing_infix_course : p.closing e <:+: p.course (e :: session) :=
  ⟨p :: p.inside e, (p.after e).course session, by simp [course]⟩

theorem later_infix_course : (p.after e).course session <:+: p.course (e :: session) :=
  ⟨p :: (p.inside e ++ p.closing e), [], by simp [course]⟩

end

/-- The course of a session ends with the plant that the session leaves. -/
theorem afterAll_mem_course (p : Plant) (session : List Episode) :
    p.afterAll session ∈ p.course session := by
  induction session generalizing p with
  | nil => exact List.mem_cons_self
  | cons e session ih =>
      exact List.mem_cons_of_mem _
        (List.mem_append_right _ (List.mem_append_right _ (ih (p.after e))))

section

variable {allowed : String → LeafFlags → Prop} {p : Plant} (hp : p.Reachable)

include hp

/-- An episode goes turn by turn, and a session goes on from what it leaves. -/
theorem Reachable.turns_episode {e : Episode} (hadm : p.Admits e) (he : e.Obeys allowed)
    {rest : List Plant} (hrest : (p.after e :: rest).IsChain fun q r =>
      Turn allowed q.unmark r.unmark) :
    (p :: (p.inside e ++ (p.closing e ++ p.after e :: rest))).IsChain fun q r =>
      Turn allowed q.unmark r.unmark := by
  cases e with
  | alone call =>
      refine List.isChain_cons_cons.mpr ⟨?_, hrest⟩
      show Turn allowed p.unmark (p.perform call).plant.unmark
      rw [← p.plant_perform_unmark]
      exact .performs call (he call List.mem_cons_self)
  | overlap hold script =>
      have hscript : ∀ s ∈ script, s.call.Obeys allowed := fun s hs =>
        he s.call (List.mem_cons_of_mem _ (List.mem_map_of_mem hs))
      have hbegun := Overlap.begun_sound hp.wellFormed hadm.1
      have hsteps := hbegun.steps hadm.2
      have hasked : ∀ ask ∈ [] ++ (Overlap.begun p hold).asked script, ask.1.Obeys allowed :=
        fun ask hask => hscript (.start ask.1) (Overlap.start_mem_of_mem_asked ask hask)
      have hlast : (p.after (.overlap hold script) :: p.after (.overlap hold script) ::
          rest).IsChain fun q r => Turn allowed q.unmark r.unmark :=
        List.isChain_cons_cons.mpr ⟨.stays, hrest⟩
      have hclosing := hsteps.turns_ending hasked _ hlast
      have hinside := hbegun.turns_plants hadm.2 hscript hclosing
      -- The first plant inside is the start: to stop a call changes nothing.
      obtain ⟨tail, htail⟩ := (Overlap.begun p hold).plants_eq_cons script
      show (p :: ((Overlap.begun p hold).plants script ++ _)).IsChain _
      rw [htail, List.cons_append] at hinside ⊢
      refine List.isChain_cons_cons.mpr ⟨?_, hinside⟩
      rw [Overlap.unmark_begun hp.wellFormed hadm.1,
        p.unmark_of_not hp.wellFormed.root_unmarked]
      exact .stays

/-- The course of a session goes turn by turn. -/
theorem Reachable.turns_course {session : List Episode} (hadm : p.AdmitsAll session)
    (hsession : ∀ e ∈ session, e.Obeys allowed) :
    (p.course session).IsChain fun q r => Turn allowed q.unmark r.unmark := by
  induction session generalizing p with
  | nil => exact .singleton p
  | cons e session ih =>
      have hlater := ih (hp.after hadm.1) hadm.2 fun e he => hsession e (List.mem_cons_of_mem _ he)
      obtain ⟨rest, hcourse⟩ := (p.after e).course_eq_cons session
      rw [course, hcourse]
      exact hp.turns_episode hadm.1 (hsession e List.mem_cons_self) (hcourse ▸ hlater)

end

/-- All plants in the course of a session are well-formed, but for the mark. -/
theorem Reachable.wellFormed_course {p : Plant} (hp : p.Reachable) {session : List Episode}
    (hadm : p.AdmitsAll session) : ∀ q ∈ p.course session, q.unmark.WellFormed := by
  have hstart : p.unmark.WellFormed := by
    rw [p.unmark_of_not hp.wellFormed.root_unmarked]
    exact hp.wellFormed
  induction session generalizing p with
  | nil =>
      intro q hq
      obtain rfl := List.mem_singleton.mp hq
      exact hstart
  | cons e session ih =>
      have hnext := hp.after hadm.1
      have hfirst : (p.after e).unmark.WellFormed := by
        rw [(p.after e).unmark_of_not hnext.wellFormed.root_unmarked]
        exact hnext.wellFormed
      intro q hq
      rcases List.mem_cons.mp hq with rfl | hq
      · exact hstart
      rcases List.mem_append.mp hq with hinside | hq
      -- What single calls may do does not matter here, so any flags are allowed.
      · have hany : e.Obeys fun _ _ => True := fun _ _ _ _ _ => trivial
        exact (hp.effects_inside hadm.1 hany q hinside).1
      rcases List.mem_append.mp hq with hclosing | hlater
      · cases e with
        | alone call => cases hclosing
        | overlap hold script =>
            exact ((Overlap.begun_sound hp.wellFormed hadm.1.1).steps
              hadm.1.2).wellFormed_ending q hclosing
      · exact ih hnext hadm.2 hfirst q hlater

end Plant

/-! ### Where calls are made -/

namespace Overlap

theorem mem_plants_of_mem_asked {o : Overlap} {script : List Step} :
    ∀ ask ∈ o.asked script, ask.2 ∈ o.plants script := by
  induction script generalizing o with
  | nil =>
      intro ask hask
      cases hask
  | cons s rest ih =>
      intro ask hask
      cases s with
      | now call => exact List.mem_cons_of_mem _ (ih ask hask)
      | start call =>
          rcases List.mem_cons.mp hask with rfl | hask
          · exact List.mem_cons_self
          · exact List.mem_cons_of_mem _ (ih ask hask)

theorem mem_plants_of_mem_ordinaryParts {o : Overlap} {script : List Step} :
    ∀ part ∈ o.ordinaryParts script (o.steps script).2, part.met ∈ o.plants script := by
  induction script generalizing o with
  | nil =>
      intro part hpart
      cases hpart
  | cons s rest ih =>
      intro part hpart
      cases s with
      | now call =>
          rcases List.mem_cons.mp hpart with rfl | hpart
          · exact List.mem_cons_self
          · exact List.mem_cons_of_mem _ (ih part hpart)
      | start call => exact List.mem_cons_of_mem _ (ih part hpart)

end Overlap

namespace Plant

/-- The plant that a call of a session comes upon is one of its course. -/
theorem met_mem_course (p : Plant) (session : List Episode) :
    ∀ part ∈ (p.trace session).parts, part.met ∈ p.course session := by
  induction session generalizing p with
  | nil =>
      intro part hpart
      cases hpart
  | cons e session ih =>
      have hlater : ∀ part ∈ ((p.after e).trace session).parts,
          part.met ∈ p.course (e :: session) := fun part hpart =>
        List.mem_cons_of_mem _
          (List.mem_append_right _ (List.mem_append_right _ (ih (p.after e) part hpart)))
      intro part hpart
      cases e with
      | alone call =>
          rcases List.mem_cons.mp hpart with rfl | hrest
          · exact List.mem_cons_self
          · exact hlater part hrest
      | overlap hold script =>
          have hinside (h : part.met ∈ (Overlap.begun p hold).plants script) :
              part.met ∈ p.course (.overlap hold script :: session) :=
            List.mem_cons_of_mem _ (List.mem_append_left _ h)
          rcases List.mem_append.mp hpart with hfirst | hrest
          · rcases List.mem_cons.mp hfirst with rfl | hfirst
            · exact List.mem_cons_self
            rcases List.mem_append.mp hfirst with hordinary | hstarted
            · exact hinside (Overlap.mem_plants_of_mem_ordinaryParts part hordinary)
            · exact hinside (Overlap.mem_plants_of_mem_asked _
                (Overlap.met_of_mem_startedParts part hstarted))
          · exact hlater part hrest

end Plant

end PlantStore
