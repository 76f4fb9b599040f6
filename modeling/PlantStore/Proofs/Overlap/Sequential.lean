import PlantStore.Proofs.Overlap.Serializable

/-! # The ordinary calls of an overlap, one after the other

A call that is answered at once does what it does by itself, unless it is refused for a lock and
does nothing. So the plant to which the steps of an overlap lead is the one to which a run of the
calls leads that were not refused for a lock. -/

namespace PlantStore
namespace Overlap

variable [KeyHash]

/-- The calls that a script makes at once and that are not refused for a lock. -/
def granted (o : Overlap) (script : List Step) : List Call :=
  ((o.ordinaryParts script (o.steps script).2).filter fun part =>
    part.answer.refusal? ≠ some .concurrency).map Part.call

/-- The plant to which these calls lead, made one after the other. -/
def reached (p : Plant) (hold : Call) (script : List Step) : Plant :=
  (p.run ((begun p hold).granted script)).1

/-- A call is refused for a lock and does nothing, or it does what it does by itself. -/
theorem answerNow_cases (o : Overlap) (call : Call) :
    ((o.answerNow call).answer.refusal? = some .concurrency ∧
      (o.answerNow call).plant = o.plant) ∨
    ((o.answerNow call).answer.refusal? ≠ some .concurrency ∧
      o.answerNow call = o.plant.perform call) := by
  have hperform : o.answerNow call = o.plant.perform call →
      (o.answerNow call).answer.refusal? ≠ some .concurrency ∧
        o.answerNow call = o.plant.perform call := by
    intro hsame
    rw [hsame]
    exact ⟨o.plant.perform_not_locked call, rfl⟩
  cases call with
  | setHostWord key word =>
      by_cases hreads : o.ofLeaf key (fun name => o.stopped.readsValue name) = true
      · left
        rw [answerNow, if_pos hreads]
        exact ⟨rfl, rfl⟩
      · exact .inr (hperform (if_neg hreads))
  | hostWordOf key =>
      by_cases hawaited : o.ofLeaf key o.valueAwaited = true
      · left
        rw [answerNow, if_pos hawaited]
        exact ⟨rfl, rfl⟩
      · exact .inr (hperform (if_neg hawaited))
  | _ => exact .inr (hperform rfl)

/-- The steps lead to the plant to which the granted calls lead. -/
theorem plant_steps {o : Overlap} {script : List Step} (h : o.isFeasible script = true) :
    (o.steps script).1.plant.unmark = (o.plant.unmark.run (o.granted script)).1 := by
  replace h := feasible_of_isFeasible h
  induction h with
  | nil => rfl
  | @now o call rest hfree hrest ih =>
      let part : Part := ⟨.ordinary, call, o.plant, (o.answerNow call).answer⟩
      have hcalls : o.granted (.now call :: rest) =
          ((part :: (o.step (.now call)).1.ordinaryParts rest
            ((o.step (.now call)).1.steps rest).2).filter fun part =>
              part.answer.refusal? ≠ some .concurrency).map Part.call := rfl
      show ((o.step (.now call)).1.steps rest).1.plant.unmark = _
      rw [ih, hcalls]
      -- A call that is refused for a lock is not granted, and has changed nothing.
      rcases o.answerNow_cases call with ⟨hlocked, hstill⟩ | ⟨hgranted, hperform⟩
      · have hplant : (o.step (.now call)).1.plant = o.plant := hstill
        rw [List.filter_cons_of_neg (by simpa [part] using hlocked), hplant]
        rfl
      · have hplant : (o.step (.now call)).1.plant.unmark =
            (o.plant.unmark.perform call).plant := by
          rw [o.plant.plant_perform_unmark]
          exact congrArg (fun outcome => outcome.plant.unmark) hperform
        rw [List.filter_cons_of_pos (by simpa [part] using hgranted), hplant]
        rfl
  | @start o call rest w hw hrest ih =>
      have hplant : (o.step (.start call)).1.plant.unmark = o.plant.unmark :=
        plant_start_unmark hw
      rw [hplant] at ih
      exact ih

/-- The plant that the ordinary calls lead to, whatever has marked it meanwhile. -/
theorem reached_eq {p : Plant} (hp : p.WellFormed) {hold : Call} {script : List Step}
    (h : Admissible p hold script) :
    reached p hold script = ((begun p hold).steps script).1.plant.unmark := by
  rw [reached, plant_steps h.2, unmark_begun hp h.1]

end Overlap
end PlantStore
