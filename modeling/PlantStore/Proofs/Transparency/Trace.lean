import PlantStore.Proofs.Transparency.Finish

/-! # The trace of a session

The trace of a session says what is to be seen of it: all calls with their answers, the reports, and
the plant that is left. The trace on a recast plant is the recast trace. -/

namespace PlantStore

/-- What is to be seen of a session. -/
structure Trace where
  /-- The calls with their answers. -/
  parts : List Part
  /-- What each episode reports. Of an overlap no reports are kept. -/
  reports : List (List Event)
  /-- The plant that is left. -/
  plant : Plant

/-- The trace with all plants recast. -/
def Trace.recast (g : String → UInt32) (quiet : Bool) (t : Trace) : Trace where
  parts := t.parts.map (Part.recast g quiet)
  reports := t.reports.map (heard quiet)
  plant := t.plant.recast g quiet

variable [KeyHash]

namespace Plant

/-- The trace of a session if calls are carried out in a given way. -/
def traceBy (carry : Plant → Call → Outcome Answer) (p : Plant) : List Episode → Trace
  | [] => ⟨[], [], p⟩
  | .alone call :: session =>
    let outcome := carry p call
    let rest := traceBy carry outcome.plant session
    ⟨⟨.ordinary, call, p, outcome.answer⟩ :: rest.parts, outcome.events :: rest.reports,
      rest.plant⟩
  | .overlap hold script :: session =>
    let rest := traceBy carry (Overlap.run p hold script).plant session
    ⟨Overlap.parts p hold script ++ rest.parts, [] :: rest.reports, rest.plant⟩

/-- The trace of a session. -/
def trace (p : Plant) (session : List Episode) : Trace := p.traceBy perform session

theorem trace_alone (p : Plant) (call : Call) (session : List Episode) :
    p.trace (.alone call :: session) =
      let rest := (p.perform call).plant.trace session
      ⟨⟨.ordinary, call, p, (p.perform call).answer⟩ :: rest.parts,
        (p.perform call).events :: rest.reports, rest.plant⟩ := rfl

theorem trace_overlap (p : Plant) (hold : Call) (script : List Step)
    (session : List Episode) :
    p.trace (.overlap hold script :: session) =
      let rest := (Overlap.run p hold script).plant.trace session
      ⟨Overlap.parts p hold script ++ rest.parts, [] :: rest.reports, rest.plant⟩ := rfl

variable (g : String → UInt32) (quiet : Bool)

/-- A new plant of the other store is the recast form of a new plant. -/
theorem make_recast (type : Int32) (debug : Bool) :
    @make ⟨g⟩ type (debug && !quiet) = (make type debug).recast g quiet := by
  have hname : (make type debug).root.name = rootKey :=
    Leaf.name_create rootKey .int [.ofValue (.int type)]
  have hroot : (make type debug).root.recast g = (@make ⟨g⟩ type (debug && !quiet)).root := by
    rw [Leaf.recast, hname]
    rfl
  rw [recast, hroot]
  rfl

theorem Hashed.make (type : Int32) (debug : Bool) : (make type debug).Hashed :=
  (WellFormed.make type debug).hash_eq

section

variable {p : Plant} (h : p.Hashed)

include h

/-- What a call by itself is answered on the recast plant. -/
theorem Hashed.part_perform_recast (call : Call) :
    (⟨.ordinary, call, p.recast g quiet,
        (@Plant.perform ⟨g⟩ (p.recast g quiet) call).answer⟩ : Part) =
      Part.recast g quiet ⟨.ordinary, call, p, (p.perform call).answer⟩ := by
  cases hcall : call.isReflective with
  | false =>
      rw [Part.recast_of_not_isReflective g quiet hcall, h.perform_recast g quiet hcall]
      rfl
  | true =>
      cases call with
      | describe => rfl
      | isDebug => rfl
      | _ => cases hcall

theorem Hashed.admits_recast (e : Episode) :
    @Admits ⟨g⟩ (p.recast g quiet) e ↔ p.Admits e := by
  cases e with
  | alone call => exact Iff.rfl
  | overlap hold script => exact Overlap.admissible_recast g quiet h hold script

theorem Hashed.after_recast {e : Episode} (he : p.Admits e) :
    @after ⟨g⟩ (p.recast g quiet) e = (p.after e).recast g quiet := by
  cases e with
  | alone call => exact (h.plant_perform_recast g quiet call).1
  | overlap hold script => exact congrArg Overlap.Report.plant (Overlap.run_recast g quiet h he)

theorem Hashed.after {e : Episode} (he : p.Admits e) : (p.after e).Hashed := by
  cases e with
  | alone call => exact h.perform call
  | overlap hold script => exact Overlap.hashed_run h he

/-- A session can take place on the recast plant exactly if it can on the plant. -/
theorem Hashed.admitsAll_recast (session : List Episode) :
    @AdmitsAll ⟨g⟩ (p.recast g quiet) session ↔ p.AdmitsAll session := by
  induction session generalizing p with
  | nil => exact Iff.rfl
  | cons e session ih =>
      refine (and_congr_left' (h.admits_recast g quiet e)).trans (and_congr_right fun he => ?_)
      rw [h.after_recast g quiet he]
      exact ih (h.after he)

/-- The trace on the recast plant is the recast trace. -/
theorem Hashed.trace_recast {session : List Episode} (hadm : p.AdmitsAll session) :
    @trace ⟨g⟩ (p.recast g quiet) session = (p.trace session).recast g quiet := by
  induction session generalizing p with
  | nil => rfl
  | cons e session ih =>
      have hrest := ih (h.after hadm.1) hadm.2
      rw [← h.after_recast g quiet hadm.1] at hrest
      cases e with
      | alone call =>
          have hpart := h.part_perform_recast g quiet call
          have hevents := (h.plant_perform_recast g quiet call).2
          unfold trace traceBy
          dsimp only
          rw [hpart, hevents]
          exact congrArg (fun rest : Trace => (⟨_ :: rest.parts, _ :: rest.reports, rest.plant⟩ :
            Trace)) hrest
      | overlap hold script =>
          unfold trace traceBy
          rw [Overlap.parts_recast g quiet h hadm.1]
          refine (congrArg (fun rest : Trace => (⟨_ ++ rest.parts, [] :: rest.reports, rest.plant⟩ :
            Trace)) hrest).trans ?_
          simp only [Trace.recast, trace, List.map_append, List.map_cons, heard_nil]
          rfl

/-- Every call of a session is its own recast form under the same hash function. -/
theorem Hashed.recast_of_mem_parts {session : List Episode} (hadm : p.AdmitsAll session)
    {part : Part} (hpart : part ∈ (p.trace session).parts) :
    part.recast KeyHash.hash false = part := by
  have hsame := congrArg Trace.parts (h.trace_recast KeyHash.hash false hadm)
  rw [p.hashed_iff.mp h] at hsame
  have hmap : (p.trace session).parts.map (Part.recast KeyHash.hash false) =
      (p.trace session).parts.map id := hsame.symm.trans (List.map_id _).symm
  exact List.map_inj_left.mp hmap part hpart

end

end Plant

end PlantStore
