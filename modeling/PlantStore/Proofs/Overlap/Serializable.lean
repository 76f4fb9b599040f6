import PlantStore.Proofs.Overlap.Places
import PlantStore.Proofs.Reachable
import PlantStore.Proofs.Refusals

/-! # Overlaps are serializable

The places of the calls, put together: every admissible overlap that starts no `free` has a
serial order. Two kinds of answers are not those of one moment, and a counterexample shows one of
each. -/

namespace PlantStore

namespace Overlap

section

variable [KeyHash]

/-! ### The whole order -/

/-- The stopped call does not free the plant, and without the rights it moves no leaf. -/
theorem finish_keeps_stopped {p : Plant} (hp : p.Searchable) (s : Stopped) :
    (s.finish p).2.isDefunct = p.isDefunct ∧
      (s.hasRights = false → ∀ key, (s.finish p).2.place? key = p.place? key) := by
  cases s with
  | updating name seed values =>
      exact ⟨hp.isDefunct_updateNow name seed values,
        fun _ => hp.place?_updateNow name seed values⟩
  | inserting key seed values =>
      exact ⟨hp.isDefunct_set key seed values, fun hrights => by cases hrights⟩
  | _ => exact ⟨rfl, fun _ _ => rfl⟩

/-- Updates that put their elements in place do not free the plant and move no leaf. -/
theorem publish_all_keeps {p : Plant} (hp : p.Searchable) (ws : List Waiting) :
    (ws.foldl Waiting.publish p).isDefunct = p.isDefunct ∧
      ∀ key, (ws.foldl Waiting.publish p).place? key = p.place? key := by
  induction ws generalizing p with
  | nil => exact ⟨rfl, fun _ => rfl⟩
  | cons w ws ih =>
      rw [List.foldl_cons]
      cases w with
      | publishing name elements =>
          obtain ⟨hs, hd, hplaces⟩ :=
            hp.modify_keeps name (Leaf.isContent_elements elements)
          obtain ⟨hd', hplaces'⟩ := ih hs
          exact ⟨hd'.trans hd, fun key => (hplaces' key).trans (hplaces key)⟩
      | _ => exact ih hp

section

variable {p : Plant} {hold : Call} {asked : List (Call × Plant)} {o : Overlap}
  (h : o.Sound p hold asked)

include h

/-- The waiting calls with what they were asked. -/
theorem Sound.zip_served :
    (o.waiting.zip asked).map Prod.fst = o.waiting ∧ (o.waiting.zip asked).map Prod.snd = asked ∧
      ∀ entry ∈ o.waiting.zip asked, entry.1.Serves entry.2.2 o.plant.unmark entry.2.1 := by
  have hlength := h.serves.length_eq
  refine ⟨List.map_fst_zip (Nat.le_of_eq hlength), List.map_snd_zip (Nat.le_of_eq hlength.symm), ?_⟩
  intro entry hentry
  exact List.forall₂_zip h.serves hentry

/-- The waiting calls with what they were asked, in the order of their turns. -/
theorem Sound.turns_served :
    (inTurn (o.waiting.zip asked)).map Prod.fst = Waiting.turns o.waiting ∧
      ∀ entry ∈ inTurn (o.waiting.zip asked), entry.1 ∈ o.waiting ∧ entry.2 ∈ asked ∧
        entry.1.Serves entry.2.2 o.plant.unmark entry.2.1 := by
  obtain ⟨hfst, -, hserves⟩ := h.zip_served
  refine ⟨by rw [map_fst_inTurn, hfst], fun entry hentry => ?_⟩
  have hmem := (mem_inTurn _).mp hentry
  exact ⟨(List.of_mem_zip hmem).1, (List.of_mem_zip hmem).2, hserves entry hmem⟩

/-- The started calls have the answers of their turns, whatever mark the plant has. -/
theorem Sound.startedParts_turns (during : List (Option Answer)) :
    let published := o.waiting.foldl Waiting.publish (o.stopped.finish o.plant.unmark).2
    (startedParts asked (o.finish during).started).Perm
      ((servedParts published published (inTurn (o.waiting.zip asked))).map Prod.snd) := by
  obtain ⟨hfst, hsnd, -⟩ := h.zip_served
  have hperm := startedParts_perm
    (o.waiting.foldl Waiting.publish (o.stopped.finish o.plant.unmark).2)
    (o.waiting.foldl Waiting.publish (o.stopped.finish o.plant.unmark).2) (o.waiting.zip asked)
  rw [hfst, hsnd] at hperm
  rw [h.finish_eq]
  exact hperm

/-- The updates that have passed every check, after the stopped call. -/
theorem Sound.serial_publishes (seen q : Plant) :
    Serial Part.Agrees (o.stopped.finish o.plant.unmark).2
      (ofPhase .publishes (servedParts seen q (inTurn (o.waiting.zip asked))))
      (o.waiting.foldl Waiting.publish (o.stopped.finish o.plant.unmark).2) := by
  obtain ⟨hfst, hserved⟩ := h.turns_served
  -- If an update waits, then for a read, which leaves the plant as it is.
  rcases h.publishes_cases with hnone | hstill
  · rw [publish_all_eq_self hnone, ofPhase_servedParts_eq_nil]
    · exact .done
    · intro entry hentry hphase
      obtain ⟨name, hname⟩ := Waiting.publishes_of_phase hphase
      rw [hnone entry.1 (hserved entry hentry).1 name] at hname
      cases hname
  · have hserial := Overlap.serial_publishes (o := o.unmark) h.wellFormed seen q
      (fun entry hentry => (hserved entry hentry).1)
      (fun entry hentry => h.reader entry.1 (hserved entry hentry).1)
      (fun entry hentry => (hserved entry hentry).2.2)
    rw [hfst, publish_turns] at hserial
    rw [hstill]
    exact hserial

/-- No waiting call has lost what it relies on when the stopped call and the updates have
left. -/
theorem Sound.due (hfree : ∀ ask ∈ asked, ask.1 ≠ .free) :
    ∀ entry ∈ inTurn (o.waiting.zip asked),
      Due entry.2.2 (o.waiting.foldl Waiting.publish (o.stopped.finish o.plant.unmark).2)
        entry.2.1 entry.1 := by
  intro entry hentry
  obtain ⟨-, hserved⟩ := h.turns_served
  obtain ⟨hwaits, hasked, hserves⟩ := hserved entry hentry
  have hstopped := wellFormed_finish_stopped h.wellFormed o.stopped
  obtain ⟨hd, hplaces⟩ := finish_keeps_stopped h.wellFormed.toSearchable o.stopped
  obtain ⟨hd', hplaces'⟩ := publish_all_keeps hstopped.toSearchable o.waiting
  refine (due_of_serves hserves (hfree _ hasked)).after (hd'.trans hd) ?_
  intro hmarks key
  exact (hplaces' key).trans (hplaces (h.first entry.1 hwaits hmarks) key)

/-- The started calls, in the order of their phases, lead from where the stopped call leaves the
plant to the end of the overlap. -/
theorem Sound.serial_started (hfree : ∀ ask ∈ asked, ask.1 ≠ .free)
    (during : List (Option Answer)) :
    ∃ order : List Part,
      order.Perm (startedParts asked (o.finish during).started) ∧
      Serial Part.Agrees (o.stopped.finish o.plant.unmark).2 order (o.finish during).plant := by
  obtain ⟨hfst, hserved⟩ := h.turns_served
  -- The plant that waiting reads have seen is the one on which the first turn begins.
  let published := o.waiting.foldl Waiting.publish (o.stopped.finish o.plant.unmark).2
  let served := servedParts published published (inTurn (o.waiting.zip asked))
  refine ⟨ofPhase .publishes served ++ (ofPhase .reads served ++ ofPhase .turns served),
    (perm_phases served).trans (h.startedParts_turns during).symm, ?_⟩
  have hreads : Serial Part.Agrees published (ofPhase .reads served) published :=
    serial_reads published o.plant.unmark fun entry hentry => (hserved entry hentry).2.2
  have hturns := serial_turns published h.wellFormed_published (h.due hfree)
    (by rw [hfst]; exact h.turns_ordered)
  rw [hfst] at hturns
  rw [h.plant_finish]
  exact (h.serial_publishes published published).append (hreads.append hturns)

end

/-- The plant of an overlap that has just begun, without any mark, is the one it began with. -/
theorem unmark_begun {p : Plant} (hp : p.WellFormed) {hold : Call}
    (h : (Stopped.of? p hold).isSome = true) : (begun p hold).plant.unmark = p := by
  obtain ⟨s, hs⟩ := Option.isSome_iff_exists.mp h
  rw [begun_eq hs, Plant.unmark_of_not p hp.root_unmarked]

omit [KeyHash] in
theorem filter_ordinary {ordinary others : List Part}
    (hordinary : ∀ part ∈ ordinary, part.role = .ordinary)
    (hothers : ∀ part ∈ others, part.role ≠ .ordinary) :
    (ordinary ++ others).filter (fun part => part.role = .ordinary) = ordinary := by
  rw [List.filter_append, List.filter_eq_self.mpr, List.filter_eq_nil_iff.mpr, List.append_nil]
  · intro part hpart
    simp [hothers part hpart]
  · intro part hpart
    simp [hordinary part hpart]

omit [KeyHash] in
theorem role_of_mem_startedParts {asked : List (Call × Plant)} {answers : List Answer} :
    ∀ part ∈ startedParts asked answers, part.role = .started := by
  induction asked generalizing answers with
  | nil => simp [startedParts]
  | cons ask asked ih =>
      intro part hpart
      cases answers with
      | nil => simp [startedParts] at hpart
      | cons answer answers =>
          rcases List.mem_cons.mp hpart with rfl | hrest
          · rfl
          · exact ih part hrest

omit [KeyHash] in
/-- A started call has come upon the plant on which it was asked for. -/
theorem met_of_mem_startedParts {asked : List (Call × Plant)} {answers : List Answer} :
    ∀ part ∈ startedParts asked answers, (part.call, part.met) ∈ asked := by
  induction asked generalizing answers with
  | nil => simp [startedParts]
  | cons ask asked ih =>
      intro part hpart
      cases answers with
      | nil => simp [startedParts] at hpart
      | cons answer answers =>
          rcases List.mem_cons.mp hpart with rfl | hrest
          · exact List.mem_cons_self
          · exact List.mem_cons_of_mem _ (ih part hrest)

/-- The stopped call comes first, or between the ordinary calls and the started ones. -/
theorem serializable_run {p : Plant} (hp : p.WellFormed) {hold : Call} {script : List Step}
    (h : Admissible p hold script)
    (hfree : ∀ ask ∈ (begun p hold).asked script, ask.1 ≠ .free) :
    Serializable Part.Agrees p hold script := by
  have hsound := (begun_sound hp h.1).steps h.2
  rw [List.nil_append] at hsound
  let o := ((begun p hold).steps script).1
  let during := ((begun p hold).steps script).2
  let ordinary := (begun p hold).ordinaryParts script during
  have hrun : run p hold script = o.finish during := rfl
  have hanswer : (run p hold script).stopped = (o.stopped.finish o.plant.unmark).1 := by
    rw [hrun, hsound.finish_eq]
  have hordinary : Serial Part.Agrees p ordinary o.plant.unmark := by
    have hserial := serial_ordinary h.2
    rw [unmark_begun hp h.1] at hserial
    exact hserial
  obtain ⟨started, hperm, hstarted⟩ := hsound.serial_started hfree during
  have hroles : ∀ part ∈ started, part.role ≠ .ordinary := by
    intro part hpart hrole
    rw [role_of_mem_startedParts part (hperm.subset hpart)] at hrole
    cases hrole
  -- The stopped call comes first if its answer was settled, and else behind the ordinary calls.
  rcases finish_of_holds hsound.holds hsound.wellFormed.toSearchable with
    ⟨hsame, hfinish⟩ | hfinish
  · rw [hfinish] at hanswer hstarted
    refine ⟨⟨.held, hold, p, (run p hold script).stopped⟩ :: (ordinary ++ started), ?_, ?_, ?_⟩
    · exact (hperm.append_left ordinary).cons _
    · rw [List.filter_cons_of_neg (by simp)]
      exact filter_ordinary role_of_mem_ordinaryParts hroles
    · exact .still (.exact hanswer) hsame (hordinary.append hstarted)
  · rw [hfinish] at hanswer hstarted
    refine ⟨ordinary ++ ⟨.held, hold, p, (run p hold script).stopped⟩ :: started, ?_, ?_, ?_⟩
    · exact List.perm_middle.trans ((hperm.append_left ordinary).cons _)
    · apply filter_ordinary role_of_mem_ordinaryParts
      intro part hpart
      rcases List.mem_cons.mp hpart with rfl | hrest
      · simp
      · exact hroles part hrest
    · exact hordinary.append (.next (.exact hanswer) hstarted)

/-! ### Refusals -/

/-- Whose answer is a refusal for a lock asked for the host's word. -/
theorem refused_of_serial {p q : Plant} {order : List Part}
    (h : Serial Part.Agrees p order q) {part : Part} (hpart : part ∈ order)
    (hrefused : part.answer.refusal? = some .concurrency) :
    (∃ key, part.call = .hostWordOf key) ∨ ∃ key word, part.call = .setHostWord key word := by
  obtain ⟨met, -, hagrees | hvoid⟩ :=
    @Serial.at_turn _ _ (fun _ => True) _ _ _ h trivial (fun _ _ _ _ => trivial) part hpart
  · cases hagrees with
    | exact hexact =>
        rw [hexact] at hrefused
        exact absurd hrefused (met.perform_not_locked part.call)
    | marked => cases hrefused
    | exported hnames => cases hrefused
    | viewed hnames => cases hrefused
  · obtain ⟨role, call, asked, answer⟩ := part
    cases call with
    | hostWordOf key => exact .inl ⟨key, rfl⟩
    | setHostWord key word => exact .inr ⟨key, word, rfl⟩
    | set key seed values =>
        obtain ⟨-, -, -, hanswer⟩ := hvoid
        rw [hanswer] at hrefused
        cases hrefused
    | _ => exact hvoid.elim

theorem start_mem_of_mem_asked {o : Overlap} {script : List Step} :
    ∀ ask ∈ o.asked script, Step.start ask.1 ∈ script := by
  induction script generalizing o with
  | nil =>
      intro ask hask
      cases hask
  | cons s rest ih =>
      intro ask hask
      cases s with
      | now call => exact List.mem_cons_of_mem _ (ih ask hask)
      | start call =>
          rcases List.mem_cons.mp hask with rfl | hrest
          · exact List.mem_cons_self
          · exact List.mem_cons_of_mem _ (ih ask hrest)

/-! ### The theorem -/

end

end Overlap
end PlantStore
