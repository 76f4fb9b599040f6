import PlantStore.Proofs.Overlap.Turns

/-! # The end of an overlap

When the stopped call goes on, the mark of a waiting removal plays no part in what the calls do,
and the last removal that has put it on takes it off. So the plant that is left is the one that
the calls make of the unmarked plant, and it is well-formed. -/

namespace PlantStore

variable [KeyHash]

/-! ### The mark -/

theorem Stopped.finish_unmark (s : Stopped) (p : Plant) :
    s.finish p.unmark = ((s.finish p).1, (s.finish p).2.unmark) := by
  cases s with
  | reading name answer => rfl
  | ended answer => rfl
  | listing =>
      show (Answer.keys (.ok p.unmark.names), p.unmark) = (Answer.keys (.ok p.names), p.unmark)
      rw [p.names_unmark]
  | updating name seed values =>
      simp only [finish, p.updateNow_unmark name seed values]
      rfl
  | inserting key seed values =>
      simp only [finish, p.set_unmark key seed values]
      rfl

/-- A call that stands on a value has only its answer left to give. -/
theorem Stopped.finish_of_readsValue {s : Stopped} {name : String} (h : s.readsValue name = true)
    (p : Plant) : (s.finish p).2 = p := by
  cases s with
  | reading held answer => rfl
  | _ => cases h

theorem Waiting.publish_unmark (w : Waiting) (p : Plant) :
    w.publish p.unmark = (w.publish p).unmark := by
  cases w with
  | publishing name elements => exact p.publish_unmark name elements
  | _ => rfl

/-- A waiting call leaves the same plant with and without the mark, but for the mark. -/
theorem Waiting.finish_plant_unmark (w : Waiting) (seen seen' p : Plant) :
    (w.finish seen' p.unmark).2 = (w.finish seen p).2.unmark := by
  cases w with
  | updating name seed values => exact congrArg Outcome.plant (p.updateNow_unmark name seed values)
  | flagging name flags => exact congrArg Outcome.plant (p.setFlags_unmark name flags)
  | inserting key seed values => exact congrArg Outcome.plant (p.set_unmark key seed values)
  | removing key index =>
      show (p.unmark.reportDeleted key (p.unmark.unmark.removeAt index)).plant =
        (p.reportDeleted key (p.unmark.removeAt index)).plant.unmark
      rw [Plant.reportDeleted_plant, Plant.reportDeleted_plant, Plant.removeAt_unmark]
      rfl
  | deleting key => exact congrArg Outcome.plant (p.deleteAfterWait_unmark key)
  | sweeping start => exact congrArg Outcome.plant (p.unmark.freeFrom_unmark start)
  | freeing => exact congrArg Outcome.plant p.freeAfterWait_unmark
  | _ => rfl

/-- A waiting call answers the same with and without the mark. -/
theorem Waiting.finish_answer_unmark {w : Waiting}
    (hw : ∀ call, w = .reading call → call ≠ .describe) (seen p : Plant) :
    (w.finish seen.unmark p.unmark).1 = (w.finish seen p).1 := by
  cases w with
  | publishing name elements => rfl
  | updating name seed values =>
      exact congrArg (fun o => Answer.unit o.answer) (p.updateNow_unmark name seed values)
  | flagging name flags =>
      exact congrArg (fun o => Answer.unit o.answer) (p.setFlags_unmark name flags)
  | inserting key seed values =>
      exact congrArg (fun o => Answer.unit o.answer) (p.set_unmark key seed values)
  | removing key index =>
      show Answer.unit (p.unmark.reportDeleted key (p.unmark.unmark.removeAt index)).answer =
        Answer.unit (p.reportDeleted key (p.unmark.removeAt index)).answer
      rw [Plant.reportDeleted_answer, Plant.reportDeleted_answer, Plant.unmark_unmark]
  | deleting key =>
      exact congrArg (fun o => Answer.unit o.answer) (p.deleteAfterWait_unmark key)
  | sweeping start =>
      exact congrArg (fun o => Answer.unit o.answer) (p.unmark.freeFrom_unmark start)
  | freeing => exact congrArg (fun o => Answer.unit o.answer) p.freeAfterWait_unmark
  | reading call => exact seen.answer_perform_unmark (hw call rfl)
  | exporting order done left =>
      show Answer.text (order.text (done ++ seen.unmark.entriesOf left)) =
        Answer.text (order.text (done ++ seen.entriesOf left))
      rw [seen.entriesOf_unmark]
  | viewing length isDefunct done left =>
      show Answer.views length isDefunct (done ++ left.map seen.unmark.view) =
        Answer.views length isDefunct (done ++ left.map seen.view)
      rw [List.map_congr_left fun key _ => seen.view_unmark key]

theorem Waiting.finish_unmark {w : Waiting}
    (hw : ∀ call, w = .reading call → call ≠ .describe) (seen p : Plant) :
    w.finish seen.unmark p.unmark = ((w.finish seen p).1, (w.finish seen p).2.unmark) :=
  Prod.ext (finish_answer_unmark hw seen p) (w.finish_plant_unmark seen seen.unmark p)

/-- No waiting call leaves the mark behind that it has put on, and none puts on another. -/
theorem Waiting.finish_unmarked {w : Waiting} (seen : Plant) {p : Plant}
    (h : p.unmark = p ∨ w.marksRoot = true) :
    (w.finish seen p).2.unmark = (w.finish seen p).2 := by
  rcases h with hp | hm
  · rw [← w.finish_plant_unmark seen seen p, hp]
  · -- A removal begins with taking the mark off, so it does not matter whether it was on.
    have hsame : (w.finish seen p.unmark).2 = (w.finish seen p).2 := by
      cases w with
      | removing key index =>
          show (p.unmark.reportDeleted key (p.unmark.unmark.removeAt index)).plant =
            (p.reportDeleted key (p.unmark.removeAt index)).plant
          rw [Plant.reportDeleted_plant, Plant.reportDeleted_plant, Plant.unmark_unmark]
      | sweeping start =>
          show (p.unmark.unmark.freeFrom start).plant = (p.unmark.freeFrom start).plant
          rw [Plant.unmark_unmark]
      | _ => cases hm
    rw [← w.finish_plant_unmark seen seen p, hsame]

namespace Overlap

/-- All started calls are served in the same way with and without the mark, but for the mark. -/
theorem serveAll_unmark {started : List Started}
    (hreads : ∀ w, .waiting w ∈ started → ∀ call, w = .reading call → call ≠ .describe)
    (seen p : Plant) : serveAll seen.unmark p.unmark started =
      ((serveAll seen p started).1, (serveAll seen p started).2.unmark) := by
  have hmirror : Mirrors KeyHash.hash seen seen.unmark id Plant.unmark
      (fun w => ∀ call, w = .reading call → call ≠ .describe) fun _ => True :=
    { wantsRights := fun _ => rfl
      finish := fun hw _ => Waiting.finish_unmark hw seen _
      keeps_finish := fun _ _ => trivial }
  have hserved := hmirror.serveAll (p := p) trivial hreads
  rwa [Started.map_id] at hserved

/-- The mark is off once all calls have been served that put it on. -/
theorem serve_unmarked {ws : List Waiting} (seen : Plant) {p : Plant}
    (h : p.unmark = p ∨ ∃ w ∈ ws, w.marksRoot = true) :
    (serve seen p (ws.map .waiting)).2.unmark = (serve seen p (ws.map .waiting)).2 := by
  induction ws generalizing p with
  | nil =>
      rcases h with hp | ⟨w, hw, -⟩
      · exact hp
      · cases hw
  | cons w ws ih =>
      apply ih
      rcases h with hp | ⟨other, hother, hm⟩
      · exact .inl (Waiting.finish_unmarked seen (.inl hp))
      · rcases List.mem_cons.mp hother with rfl | hrest
        · exact .inl (Waiting.finish_unmarked seen (.inr hm))
        · exact .inr ⟨other, hrest, hm⟩

theorem publish_all_unmark (ws : List Waiting) (p : Plant) :
    ws.foldl Waiting.publish p.unmark = (ws.foldl Waiting.publish p).unmark := by
  induction ws generalizing p with
  | nil => rfl
  | cons w ws ih =>
      rw [List.foldl_cons, List.foldl_cons, w.publish_unmark]
      exact ih _

/-! ### Well-formed plants -/

/-- An update that puts its elements in place only writes to its leaf. -/
theorem moves_publish {o : Overlap} (hp : o.plant.WellFormed) {met : Plant} {call : Call}
    {w : Waiting} (hw : w.Serves met o.plant call) :
    o.Moves (w.publish o.plant) ∧ (w.publish o.plant).WellFormed := by
  cases hw with
  | @publishing key seed values leaf elements hfind hr =>
      have hd := hp.isDefunct_of_find? hfind
      -- The update remembers its leaf by name, which is the name of the key.
      have hpublish : Waiting.publish o.plant (.publishing (leafName key) elements) =
          o.plant.alter (leafName key) fun leaf => { leaf with elements := elements } := by
        show o.plant.modify (leafName key) _ = _
        rw [hp.modify_eq_alter hd, leafName_leafName]
      rw [hpublish]
      refine ⟨.writes _ (Leaf.isContent_elements elements) fun _ => rfl, ?_⟩
      exact hp.alter_elements hfind (fun hkey => beq_iff_eq.mpr hkey) hr
  | _ => exact ⟨.stays, hp⟩

/-- Putting the elements of the waiting updates in place keeps a plant well-formed. -/
theorem wellFormed_publish_all {o : Overlap} (hp : o.plant.WellFormed) {ws : List Waiting}
    (hmem : ∀ w ∈ ws, w ∈ o.waiting)
    (hreader : ∀ w ∈ ws, w.wantsRights = true ∨ o.stopped.isReader = true)
    {asked : List (Call × Plant)}
    (hserves : List.Forall₂ (fun w ask => w.Serves ask.2 o.plant ask.1) ws asked) :
    (ws.foldl Waiting.publish o.plant).WellFormed := by
  induction ws generalizing o asked with
  | nil => exact hp
  | cons w ws ih =>
      cases hserves with
      | cons hw hrest =>
          -- The first update is a move, under which the others still serve.
          obtain ⟨hmove, hafter⟩ := moves_publish hp hw
          have hmem' : ∀ u ∈ ws, u ∈ o.waiting := fun u hu => hmem u (List.mem_cons_of_mem _ hu)
          have hreader' : ∀ u ∈ ws, u.wantsRights = true ∨ o.stopped.isReader = true :=
            fun u hu => hreader u (List.mem_cons_of_mem _ hu)
          have hrest' := (List.forall₂_and_left _ _).mpr ⟨fun u (hu : u ∈ ws) => hu, hrest⟩
          have hafter' := hrest'.imp fun u ask hu =>
            hmove.serves hp.toSearchable (hmem' u hu.1) (hreader' u hu.1) hu.2
          exact ih (o := { o with plant := w.publish o.plant }) hafter hmem' hreader' hafter'

/-- If no update waits for a reader, there are no elements to put in place. -/
theorem publish_all_eq_self {ws : List Waiting}
    (hws : ∀ w ∈ ws, ∀ name, w.publishes name = false) (p : Plant) :
    ws.foldl Waiting.publish p = p := by
  induction ws with
  | nil => rfl
  | cons w ws ih =>
      have hw : w.publish p = p := by
        cases w with
        | publishing name elements =>
            have hnot := hws _ List.mem_cons_self name
            rw [Waiting.publishes, BEq.rfl] at hnot
            cases hnot
        | _ => rfl
      rw [List.foldl_cons, hw]
      exact ih fun u hu => hws u (List.mem_cons_of_mem _ hu)

/-- The updates put the same elements in place in the order of the turns. -/
theorem publish_turns (ws : List Waiting) (p : Plant) :
    (Waiting.turns ws).foldl Waiting.publish p = ws.foldl Waiting.publish p := by
  have hrights : ∀ w ∈ ws.filter Waiting.wantsRights, ∀ name, w.publishes name = false := by
    intro w hw name
    have hwants := (List.mem_filter.mp hw).2
    cases w with
    | publishing => cases hwants
    | _ => rfl
  have hleaves : (ws.filter fun w => !w.wantsRights).foldl Waiting.publish p =
      ws.foldl Waiting.publish p := by
    clear hrights
    induction ws generalizing p with
    | nil => rfl
    | cons w ws ih =>
        rw [List.filter_cons]
        cases w <;> exact ih _
  rw [Waiting.turns, List.foldl_append, publish_all_eq_self hrights, hleaves]

theorem wellFormed_finish_stopped {p : Plant} (hp : p.WellFormed) (s : Stopped) :
    (s.finish p).2.WellFormed := by
  cases s with
  | updating name seed values => exact hp.updateNow name seed values
  | inserting key seed values => exact hp.set key seed values
  | _ => exact hp

theorem wellFormed_finish_waiting (seen : Plant) {p : Plant} (hp : p.WellFormed) (w : Waiting) :
    (w.finish seen p).2.WellFormed := by
  have hunmark : p.unmark = p := p.unmark_of_not hp.root_unmarked
  cases w with
  | updating name seed values => exact hp.updateNow name seed values
  | flagging name flags => exact hp.setFlags name flags
  | inserting key seed values => exact hp.set key seed values
  | removing key index =>
      show (p.reportDeleted key (p.unmark.removeAt index)).plant.WellFormed
      rw [Plant.reportDeleted_plant, hunmark]
      exact hp.removeAt index
  | deleting key => exact hp.deleteAfterWait key
  | sweeping start =>
      show (p.unmark.freeFrom start).plant.WellFormed
      rw [hunmark]
      exact hp.freeFrom start
  | freeing => exact hp.freeAfterWait
  | _ => exact hp

theorem wellFormed_serve (seen : Plant) {p : Plant} (hp : p.WellFormed) (ws : List Waiting) :
    (serve seen p (ws.map .waiting)).2.WellFormed := by
  induction ws generalizing p with
  | nil => exact hp
  | cons w ws ih => exact ih (wellFormed_finish_waiting seen hp w)

/-! ### Without the mark -/

section

variable {start : Plant} {hold : Call} {asked : List (Call × Plant)} {o : Overlap}
  (h : o.Sound start hold asked)

include h

/-- A waiting read is not a description of the plant. -/
theorem Sound.reading_ne_describe :
    ∀ w ∈ o.waiting, ∀ call, w = .reading call → call ≠ .describe := by
  refine ((List.forall₂_and_left _ _).mp (h.serves.imp fun w ask hserves => ⟨?_, hserves⟩)).1
  rintro call rfl
  obtain ⟨asked, met⟩ := ask
  cases hserves with
  | reading hplant hcall => exact hcall

/-- An overlap ends as if the root had never been marked. -/
theorem Sound.finish_eq (during : List (Option Answer)) :
    o.finish during =
      let resumed := o.stopped.finish o.plant.unmark
      let published := o.waiting.foldl Waiting.publish resumed.2
      let served := serveAll published published (o.waiting.map .waiting)
      ⟨resumed.1, during, served.1, served.2⟩ := by
  have hfinish : o.finish during =
      let resumed := o.stopped.finish o.plant
      let published := o.waiting.foldl Waiting.publish resumed.2
      let served := serveAll published published (o.waiting.map .waiting)
      ⟨resumed.1, during, served.1, served.2⟩ := by
    rw [← h.started_eq]
    rfl
  rw [hfinish]
  rcases h.marked with hp | ⟨w, hw, hmarks⟩
  · rw [hp]
  · -- The mark goes through every phase of the end, and the last removal takes it off.
    have hreads : ∀ w, .waiting w ∈ o.waiting.map Started.waiting →
        ∀ call, w = .reading call → call ≠ .describe := by
      intro w hw
      obtain ⟨w, hmem, ⟨⟩⟩ := List.mem_map.mp hw
      exact h.reading_ne_describe w hmem
    have hmark : ∃ w ∈ Waiting.turns o.waiting, w.marksRoot = true :=
      ⟨w, Waiting.mem_turns.mpr hw, hmarks⟩
    dsimp only
    rw [o.stopped.finish_unmark, publish_all_unmark, serveAll_unmark hreads, plant_serveAll,
      serve_unmarked _ (.inr hmark)]

/-- The plant that is left is the one to which the turns lead. -/
theorem Sound.plant_finish (during : List (Option Answer)) :
    (o.finish during).plant =
      let published := o.waiting.foldl Waiting.publish (o.stopped.finish o.plant.unmark).2
      (serve published published ((Waiting.turns o.waiting).map .waiting)).2 := by
  rw [h.finish_eq]
  exact plant_serveAll _ _ _

/-! ### The plant that is left -/

/-- No update waits for a reader, or the stopped call is that reader and changes nothing. -/
theorem Sound.publishes_cases :
    (∀ w ∈ o.waiting, ∀ name, w.publishes name = false) ∨
      ∀ p : Plant, (o.stopped.finish p).2 = p := by
  by_cases hex : ∃ w ∈ o.waiting, ∃ name, w.publishes name = true
  · right
    obtain ⟨w, hw, name, hp⟩ := hex
    have hreads := h.reads name (List.any_eq_true.mpr ⟨w, hw, hp⟩)
    intro p
    exact Stopped.finish_of_readsValue hreads p
  · left
    intro w hw name
    apply Bool.eq_false_iff.mpr
    intro hp
    exact hex ⟨w, hw, name, hp⟩

/-- The elements of the waiting updates are in place. -/
theorem Sound.wellFormed_published :
    (o.waiting.foldl Waiting.publish (o.stopped.finish o.plant.unmark).2).WellFormed := by
  rcases h.publishes_cases with hnone | hstill
  · rw [publish_all_eq_self hnone]
    exact wellFormed_finish_stopped h.wellFormed o.stopped
  · rw [hstill]
    exact wellFormed_publish_all (o := o.unmark) h.wellFormed (fun w hw => hw) h.reader h.serves

/-- The plant that an overlap leaves is well-formed. -/
theorem Sound.wellFormed_finish (during : List (Option Answer)) :
    (o.finish during).plant.WellFormed := by
  rw [h.plant_finish]
  exact wellFormed_serve _ h.wellFormed_published _

end

/-- Every admissible overlap keeps a plant well-formed. -/
theorem wellFormed_run {p : Plant} (hp : p.WellFormed) {hold : Call} {script : List Step}
    (h : Admissible p hold script) : (run p hold script).plant.WellFormed := by
  have hsound := (begun_sound hp h.1).steps h.2
  exact hsound.wellFormed_finish _

end Overlap

end PlantStore
