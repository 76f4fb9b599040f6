import PlantStore.Proofs.Overlap.Serial

/-! # Sessions

What is done with a plant in the course of its life is a list of episodes: calls that are made by
themselves, and overlaps. A statement about a whole life is a statement about such a list. -/

namespace PlantStore

/-- A call that is made by itself, or an overlap. -/
inductive Episode
  | alone (call : Call)
  | overlap (hold : Call) (script : List Step)

/-- The call that a step makes or starts. -/
def Step.call : Step → Call
  | now call | start call => call

/-- All calls of an episode. -/
def Episode.calls : Episode → List Call
  | alone call => [call]
  | overlap hold script => hold :: script.map Step.call

/-- Whether a call reads values, for which it may have to wait. -/
def Call.readsValues : Call → Bool
  | .get .. | .getAs .. | .getAll _ | .probe .. | .numElements _ | .elementSize .. | .type
  | .views | .exported _ => true
  | _ => false

/-- If the call waits as a read, it reads values. -/
def Waiting.ReadsOnly (w : Waiting) : Prop := ∀ call, w = .reading call → call.readsValues = true

variable [KeyHash]

/-- The plants that the steps of a script come upon, and the one that the last step leaves. -/
def Overlap.plants (o : Overlap) : List Step → List Plant
  | [] => [o.plant]
  | s :: rest => o.plant :: plants (o.step s).1 rest

namespace Plant

/-! ### One episode -/

/-- The plant after an episode. -/
def after (p : Plant) : Episode → Plant
  | .alone call => (p.perform call).plant
  | .overlap hold script => (Overlap.run p hold script).plant

/-- The plants in the course of an episode. -/
def inside (p : Plant) : Episode → List Plant
  | .alone _ => []
  | .overlap hold script => (Overlap.begun p hold).plants script

/-- Whether an episode can take place. Any call can; an overlap has to be admissible. -/
def Admits (p : Plant) : Episode → Prop
  | .alone _ => True
  | .overlap hold script => Overlap.Admissible p hold script

instance (p : Plant) : (e : Episode) → Decidable (p.Admits e)
  | .alone _ => .isTrue trivial
  | .overlap hold script => inferInstanceAs (Decidable (Overlap.Admissible p hold script))

/-! ### A whole session -/

/-- The plant after a session. -/
def afterAll (p : Plant) (session : List Episode) : Plant := session.foldl after p

/-- All plants in the course of a session, from the first to the last. -/
def moments (p : Plant) : List Episode → List Plant
  | [] => [p]
  | e :: session => p :: (p.inside e ++ moments (p.after e) session)

/-- Whether the episodes of a session can take place one after the other. -/
def AdmitsAll (p : Plant) : List Episode → Prop
  | [] => True
  | e :: session => p.Admits e ∧ (p.after e).AdmitsAll session

instance decidableAdmitsAll : (p : Plant) → (session : List Episode) →
    Decidable (p.AdmitsAll session)
  | _, [] => .isTrue trivial
  | p, e :: session =>
    have := decidableAdmitsAll (p.after e) session
    inferInstanceAs (Decidable (p.Admits e ∧ (p.after e).AdmitsAll session))

theorem Reachable.after {p : Plant} (hp : p.Reachable) {e : Episode} (h : p.Admits e) :
    (p.after e).Reachable := by
  cases e with
  | alone call => exact hp.call call
  | overlap hold script => exact hp.overlap h

/-- A session leaves a reachable plant reachable. -/
theorem Reachable.afterAll {p : Plant} (hp : p.Reachable) {session : List Episode}
    (h : p.AdmitsAll session) : (p.afterAll session).Reachable := by
  induction session generalizing p with
  | nil => exact hp
  | cons e session ih => exact ih (hp.after h.1) h.2

/-- A session ends with the last of its plants. -/
theorem afterAll_mem_moments (p : Plant) (session : List Episode) :
    p.afterAll session ∈ p.moments session := by
  induction session generalizing p with
  | nil => exact List.mem_cons_self
  | cons e session ih =>
      exact List.mem_cons_of_mem _ (List.mem_append_right _ (ih (p.after e)))

end Plant

namespace Overlap

/-! ### Parts of a script -/

theorem steps_cons (o : Overlap) (s : Step) (rest : List Step) :
    o.steps (s :: rest) =
      (((o.step s).1.steps rest).1, (o.step s).2 :: ((o.step s).1.steps rest).2) := rfl

theorem steps_append (o : Overlap) (a b : List Step) :
    o.steps (a ++ b) =
      (((o.steps a).1.steps b).1, (o.steps a).2 ++ ((o.steps a).1.steps b).2) := by
  induction a generalizing o with
  | nil => rfl
  | cons s a ih =>
      rw [List.cons_append, steps_cons, steps_cons, ih]
      rfl

theorem asked_append (o : Overlap) (a b : List Step) :
    o.asked (a ++ b) = o.asked a ++ (o.steps a).1.asked b := by
  induction a generalizing o with
  | nil => rfl
  | cons s a ih =>
      cases s with
      | now call => exact ih _
      | start call => exact congrArg ((call, o.plant) :: ·) (ih _)

/-- A script suits an overlap if its parts do, each the overlap as it is then. -/
theorem isFeasible_append (o : Overlap) (a b : List Step) :
    o.isFeasible (a ++ b) = (o.isFeasible a && (o.steps a).1.isFeasible b) := by
  induction a generalizing o with
  | nil => rfl
  | cons s a ih =>
      rw [List.cons_append, isFeasible, isFeasible, ih, Bool.and_assoc]
      rfl

/-- A script ends with the last of its plants. -/
theorem plant_steps_mem_plants (o : Overlap) (script : List Step) :
    (o.steps script).1.plant ∈ o.plants script := by
  induction script generalizing o with
  | nil => exact List.mem_cons_self
  | cons s rest ih => exact List.mem_cons_of_mem _ (ih (o.step s).1)

/-- A stopped call stays where it is during a script. -/
theorem stopped_steps (o : Overlap) (script : List Step) :
    (o.steps script).1.stopped = o.stopped := by
  induction script generalizing o with
  | nil => rfl
  | cons s rest ih =>
      rw [steps_cons]
      refine (ih _).trans ?_
      cases s with
      | now call => rfl
      | start call =>
          show (o.start call).stopped = o.stopped
          rw [start]
          split <;> rfl

theorem length_steps (o : Overlap) (script : List Step) :
    (o.steps script).2.length = script.length := by
  induction script generalizing o with
  | nil => rfl
  | cons s rest ih => exact congrArg (· + 1) (ih _)

/-- A call that is made at once is answered on the plant that it comes upon, as the overlap is
then. -/
theorem answerNow_of_mem_ordinaryParts {o : Overlap} {script : List Step} :
    ∀ part ∈ o.ordinaryParts script (o.steps script).2,
      ∃ now : Overlap, part.met = now.plant ∧ part.answer = (now.answerNow part.call).answer := by
  induction script generalizing o with
  | nil =>
      intro part hpart
      cases hpart
  | cons s rest ih =>
      intro part hpart
      cases s with
      | now call =>
          rcases List.mem_cons.mp hpart with rfl | hlater
          · exact ⟨o, rfl, rfl⟩
          · exact ih part hlater
      | start call => exact ih part hpart

/-- A call that is made at once is in the script. -/
theorem now_mem_of_mem_ordinaryParts {o : Overlap} {script : List Step} :
    ∀ part ∈ o.ordinaryParts script (o.steps script).2, Step.now part.call ∈ script := by
  induction script generalizing o with
  | nil =>
      intro part hpart
      cases hpart
  | cons s rest ih =>
      intro part hpart
      cases s with
      | now call =>
          rcases List.mem_cons.mp hpart with rfl | hlater
          · exact List.mem_cons_self
          · exact List.mem_cons_of_mem _ (ih part hlater)
      | start call => exact List.mem_cons_of_mem _ (ih part hpart)

/-! ### Reads that wait -/

section

variable {o : Overlap} {call read : Call}

/-- A call that does not read values never comes to wait as a read. -/
theorem wait?_ne_reading (h : call.readsValues = false) : o.wait? call ≠ some (.reading read) := by
  intro hw
  cases call with
  | set key seed values =>
      rcases waitSet?_eq_some hw with
        ⟨-, -, hform⟩ | ⟨leaf, -, -, ⟨-, hform⟩ | ⟨elements, -, -, hform⟩⟩
      · cases hform
      · cases hform
      · cases hform
  | setFlags key flags =>
      obtain ⟨leaf, -, -, hform⟩ := waitFlags?_eq_some hw
      cases hform
  | delete key =>
      obtain ⟨index, -, ⟨-, hform⟩ | ⟨-, hform⟩⟩ := waitDelete?_eq_some hw
      · cases hform
      · cases hform
  | free =>
      rcases (waitFree?_eq_some hw).2 with ⟨-, hform⟩ | ⟨-, hform⟩
      · cases hform
      · cases hform
  | _ => first | cases hw | cases h

theorem wait?_of_readsValues (h : call.readsValues = true) :
    o.wait? call = if o.readsAwaited call then some (o.waitingRead call) else none := by
  cases call with
  | set => cases h
  | setFlags => cases h
  | delete => cases h
  | free => cases h
  | _ => rfl

theorem eq_of_waitingRead (hw : o.waitingRead call = .reading read) : read = call := by
  cases call with
  | views => cases hw
  | exported order => cases hw
  | _ => exact (Waiting.reading.inj hw).symm

/-- Only a call that reads values comes to wait as a read. -/
theorem readsOnly_of_wait? {w : Waiting} (hw : o.wait? call = some w) : w.ReadsOnly := by
  rintro read rfl
  cases hreads : call.readsValues with
  | false => exact absurd hw (wait?_ne_reading hreads)
  | true =>
      rw [wait?_of_readsValues hreads] at hw
      split at hw
      · rw [eq_of_waitingRead (Option.some.inj hw), hreads]
      · cases hw

/-- All calls that wait as reads read values. -/
theorem readsOnly_steps {script : List Step} (hfeasible : o.isFeasible script = true)
    (h : ∀ w ∈ o.waiting, w.ReadsOnly) : ∀ w ∈ (o.steps script).1.waiting, w.ReadsOnly := by
  replace hfeasible := feasible_of_isFeasible hfeasible
  induction hfeasible with
  | nil => exact h
  | now hfree hrest ih => exact ih h
  | start hw hrest ih => exact ih (forall_waiting_start hw h (readsOnly_of_wait? hw))

end

end Overlap

end PlantStore
