import PlantStore.Proofs.Session
import PlantStore.Proofs.Transparency.Calls

/-! # Overlaps on a recast plant

Who holds what in an overlap, who has to wait and what a waiting call remembers are a matter of
names. So an overlap on the recast plant runs like the one on the plant: the same calls wait in the
same way, all get the same answers, and the plant that is left is recast. -/

namespace PlantStore

/-- The overlap on the recast plant. -/
def Overlap.recast (g : String → UInt32) (quiet : Bool) (o : Overlap) : Overlap :=
  { o with plant := o.plant.recast g quiet }

@[simp] theorem Overlap.plant_recast (g : String → UInt32) (quiet : Bool) (o : Overlap) :
    (o.recast g quiet).plant = o.plant.recast g quiet := rfl

@[simp] theorem Overlap.stopped_recast (g : String → UInt32) (quiet : Bool) (o : Overlap) :
    (o.recast g quiet).stopped = o.stopped := rfl

@[simp] theorem Overlap.started_recast (g : String → UInt32) (quiet : Bool) (o : Overlap) :
    (o.recast g quiet).started = o.started := rfl

@[simp] theorem Overlap.waiting_recast (g : String → UInt32) (quiet : Bool) (o : Overlap) :
    (o.recast g quiet).waiting = o.waiting := rfl

/-- A call with the answer that it gets if the plant that it comes upon is recast. Only the answer
to a question how the store is built is another one. -/
def Part.recast (g : String → UInt32) (quiet : Bool) (part : Part) : Part where
  role := part.role
  call := part.call
  met := part.met.recast g quiet
  answer :=
    match part.call with
    | .describe => .text (part.met.recast g quiet).describe
    | .isDebug => .truth (part.met.recast g quiet).isDebug
    | _ => part.answer

theorem Part.recast_of_not_isReflective (g : String → UInt32) (quiet : Bool) {part : Part}
    (h : part.call.isReflective = false) :
    part.recast g quiet = { part with met := part.met.recast g quiet } := by
  obtain ⟨role, call, met, answer⟩ := part
  cases call with
  | describe => cases h
  | isDebug => cases h
  | _ => rfl

variable [KeyHash] (g : String → UInt32) (quiet : Bool)

namespace Overlap

/-! ### Who has to wait -/

section

variable {o : Overlap}

omit [KeyHash] in
theorem waitFree?_recast (o : Overlap) : (o.recast g quiet).waitFree? = o.waitFree? := by
  have hu : Leaf.isUndeletable ∘ Leaf.recast g = Leaf.isUndeletable := rfl
  have hpassed : (((o.recast g quiet).plant.chain.takeWhile Leaf.isUndeletable).length) =
      (o.plant.chain.takeWhile Leaf.isUndeletable).length := by
    show ((o.plant.chain.map (Leaf.recast g)).takeWhile Leaf.isUndeletable).length = _
    rw [List.takeWhile_map, hu, List.length_map]
  have hlength : (o.recast g quiet).plant.chain.length = o.plant.chain.length := List.length_map _
  have hempty : (o.recast g quiet).plant.chain.isEmpty = o.plant.chain.isEmpty := List.isEmpty_map
  rw [waitFree?, waitFree?, hpassed, hlength, hempty]
  rfl

variable (h : o.plant.Hashed)

include h

theorem ofLeaf_recast (key : String) (property : String → Bool) :
    @ofLeaf ⟨g⟩ (o.recast g quiet) key property = o.ofLeaf key property := by
  unfold ofLeaf
  rw [plant_recast, h.find?_recast]
  cases o.plant.find? key <;> rfl

theorem readsAwaited_recast (call : Call) :
    @readsAwaited ⟨g⟩ (o.recast g quiet) call = o.readsAwaited call := by
  have hof : ∀ key, @ofLeaf ⟨g⟩ (o.recast g quiet) key o.valueAwaited =
      o.ofLeaf key o.valueAwaited := fun key => ofLeaf_recast g quiet h key _
  have hany : ((o.plant.root :: o.plant.chain).map (Leaf.recast g)).any
      (fun leaf => o.valueAwaited leaf.name) =
      (o.plant.root :: o.plant.chain).any fun leaf => o.valueAwaited leaf.name := by
    rw [List.any_map]
    rfl
  have hall : (!(o.recast g quiet).plant.isDefunct &&
      ((o.recast g quiet).plant.root :: (o.recast g quiet).plant.chain).any
        fun leaf => o.valueAwaited leaf.name) =
      (!o.plant.isDefunct &&
        (o.plant.root :: o.plant.chain).any fun leaf => o.valueAwaited leaf.name) := by
    rw [← hany]
    rfl
  cases call with
  | views => exact hall
  | exported order => exact hall
  | get key index => exact hof key
  | getAs kind key => exact hof key
  | getAll key => exact hof key
  | probe key index => exact hof key
  | numElements key => exact hof key
  | elementSize key index => exact hof key
  | type => exact hof rootKey
  | _ => rfl

theorem waitSet?_recast (key : String) (seed : Seed) (values : List Value) :
    @waitSet? ⟨g⟩ (o.recast g quiet) key seed values = o.waitSet? key seed values := by
  unfold waitSet?
  rw [plant_recast, h.place?_recast, h.find?_recast]
  cases o.plant.find? key <;> rfl

theorem waitFlags?_recast (key : String) (flags : LeafFlags) :
    @waitFlags? ⟨g⟩ (o.recast g quiet) key flags = o.waitFlags? key flags := by
  unfold waitFlags?
  rw [plant_recast, h.find?_recast]
  cases o.plant.find? key <;> rfl

theorem waitDelete?_recast (key : String) :
    @waitDelete? ⟨g⟩ (o.recast g quiet) key = o.waitDelete? key := by
  have hplace : @Plant.place? ⟨g⟩ (o.recast g quiet).plant key = o.plant.place? key :=
    h.place?_recast g quiet key
  have hu : ∀ index : Nat, ((o.recast g quiet).plant.chain[index]?).any Leaf.isUndeletable =
      (o.plant.chain[index]?).any Leaf.isUndeletable := by
    intro index
    show ((o.plant.chain.map (Leaf.recast g))[index]?).any Leaf.isUndeletable = _
    rw [List.getElem?_map]
    cases o.plant.chain[index]? <;> rfl
  unfold waitDelete?
  simp only [hplace, hu]
  rfl

theorem waitingRead_recast (call : Call) :
    @waitingRead ⟨g⟩ (o.recast g quiet) call = o.waitingRead call := by
  have hnames : (o.recast g quiet).namesUpToAwaited = o.namesUpToAwaited := by
    rw [namesUpToAwaited, namesUpToAwaited]
    show List.span _ (o.plant.recast g quiet).names = _
    rw [Plant.names_recast]
    rfl
  have hentries : ∀ names, @Plant.entriesOf ⟨g⟩ (o.recast g quiet).plant names =
      o.plant.entriesOf names := h.entriesOf_recast g quiet
  have hviews : ∀ names : List String,
      names.map (@Plant.view ⟨g⟩ (o.recast g quiet).plant) = names.map o.plant.view :=
    h.map_view_recast g quiet
  have hlength : (o.recast g quiet).plant.length = o.plant.length := o.plant.length_recast g quiet
  have hdefunct : (o.recast g quiet).plant.isDefunct = o.plant.isDefunct := rfl
  cases call with
  | exported order => simp only [waitingRead, hnames, hentries]
  | views => simp only [waitingRead, hnames, hviews, hlength, hdefunct]
  | _ => rfl

/-- Whether and how a call waits does not depend on the hash function. -/
theorem wait?_recast (call : Call) : @wait? ⟨g⟩ (o.recast g quiet) call = o.wait? call := by
  cases call with
  | set key seed values => exact waitSet?_recast g quiet h key seed values
  | setFlags key flags => exact waitFlags?_recast g quiet h key flags
  | delete key => exact waitDelete?_recast g quiet h key
  | free => exact waitFree?_recast g quiet o
  | _ =>
      unfold wait?
      dsimp only
      rw [readsAwaited_recast g quiet h, waitingRead_recast g quiet h]

theorem suits_recast (s : Step) : @suits ⟨g⟩ (o.recast g quiet) s = o.suits s := by
  cases s with
  | now call => exact congrArg Option.isNone (wait?_recast g quiet h call)
  | start call => exact congrArg Option.isSome (wait?_recast g quiet h call)

/-! ### Steps -/

/-- A call that is made at once leaves the recast plant, and gets the same answer unless it asks how
the store is built. -/
theorem answerNow_recast (call : Call) :
    (@answerNow ⟨g⟩ (o.recast g quiet) call).plant = (o.answerNow call).plant.recast g quiet ∧
      (call.isReflective = false →
        (@answerNow ⟨g⟩ (o.recast g quiet) call).answer = (o.answerNow call).answer) := by
  have hperform : (@Plant.perform ⟨g⟩ (o.recast g quiet).plant call).plant =
      (o.plant.perform call).plant.recast g quiet ∧ (call.isReflective = false →
        (@Plant.perform ⟨g⟩ (o.recast g quiet).plant call).answer =
          (o.plant.perform call).answer) := by
    refine ⟨(h.plant_perform_recast g quiet call).1, fun hcall => ?_⟩
    have hsame := h.perform_recast g quiet hcall
    exact (congrArg Outcome.answer hsame).trans rfl
  cases call with
  | setHostWord key word =>
      have hof : @ofLeaf ⟨g⟩ (o.recast g quiet) key
          (fun name => (o.recast g quiet).stopped.readsValue name) =
          o.ofLeaf key fun name => o.stopped.readsValue name := ofLeaf_recast g quiet h key _
      unfold answerNow
      dsimp only
      rw [hof]
      split
      · exact ⟨rfl, fun _ => rfl⟩
      · exact hperform
  | hostWordOf key =>
      have hof : @ofLeaf ⟨g⟩ (o.recast g quiet) key (o.recast g quiet).valueAwaited =
          o.ofLeaf key o.valueAwaited := ofLeaf_recast g quiet h key _
      unfold answerNow
      dsimp only
      rw [hof]
      split
      · exact ⟨rfl, fun _ => rfl⟩
      · exact hperform
  | _ => exact hperform

/-- What a call that is made at once is answered on the recast plant. -/
theorem part_answerNow_recast (call : Call) :
    (⟨.ordinary, call, o.plant.recast g quiet, (@answerNow ⟨g⟩ (o.recast g quiet) call).answer⟩ :
      Part) = Part.recast g quiet ⟨.ordinary, call, o.plant, (o.answerNow call).answer⟩ := by
  cases hcall : call.isReflective with
  | false =>
      rw [Part.recast_of_not_isReflective g quiet hcall,
        (answerNow_recast g quiet h call).2 hcall]
  | true =>
      cases call with
      | describe => rfl
      | isDebug => rfl
      | _ => cases hcall

/-- A step that suits an overlap leaves the recast overlap. -/
theorem step_recast {s : Step} (hsuits : o.suits s = true) :
    (@step ⟨g⟩ (o.recast g quiet) s).1 = (o.step s).1.recast g quiet := by
  cases s with
  | now call =>
      exact congrArg (fun plant => { o with plant := plant }) (answerNow_recast g quiet h call).1
  | start call =>
      obtain ⟨w, hw⟩ := Option.isSome_iff_exists.mp hsuits
      have hw' := (wait?_recast g quiet h call).trans hw
      show @start ⟨g⟩ (o.recast g quiet) call = (o.start call).recast g quiet
      unfold start
      rw [hw', hw]
      dsimp only [recast]
      split <;> rfl

theorem hashed_step {s : Step} (hsuits : o.suits s = true) : (o.step s).1.plant.Hashed := by
  have hstep := congrArg Overlap.plant (step_recast KeyHash.hash false h hsuits)
  exact h.of_recast (fun p => ({ o with plant := p }.step s).1.plant) hstep

/-! ### Scripts -/

/-- A script suits the recast overlap exactly if it suits the overlap. -/
theorem isFeasible_recast (script : List Step) :
    @isFeasible ⟨g⟩ (o.recast g quiet) script = o.isFeasible script := by
  induction script generalizing o with
  | nil => rfl
  | cons s rest ih =>
      unfold isFeasible
      rw [suits_recast g quiet h]
      cases hsuits : o.suits s with
      | false => rfl
      | true => rw [step_recast g quiet h hsuits, ih (hashed_step h hsuits)]

/-- A script that suits the overlap leaves the recast overlap. -/
theorem steps_recast {script : List Step} (hfeasible : o.isFeasible script = true) :
    (@steps ⟨g⟩ (o.recast g quiet) script).1 = (o.steps script).1.recast g quiet := by
  induction script generalizing o with
  | nil => rfl
  | cons s rest ih =>
      rw [isFeasible, Bool.and_eq_true] at hfeasible
      obtain ⟨hsuits, hrest⟩ := hfeasible
      show (@steps ⟨g⟩ (@step ⟨g⟩ (o.recast g quiet) s).1 rest).1 = _
      rw [step_recast g quiet h hsuits]
      exact ih (hashed_step h hsuits) hrest

theorem hashed_steps {script : List Step} (hfeasible : o.isFeasible script = true) :
    (o.steps script).1.plant.Hashed := by
  induction script generalizing o with
  | nil => exact h
  | cons s rest ih =>
      rw [isFeasible, Bool.and_eq_true] at hfeasible
      exact ih (hashed_step h hfeasible.1) hfeasible.2

/-- The calls that are answered at once get the same answers, but for those that ask how the store
is built. -/
theorem ordinaryParts_recast {script : List Step} (hfeasible : o.isFeasible script = true) :
    @ordinaryParts ⟨g⟩ (o.recast g quiet) script (@steps ⟨g⟩ (o.recast g quiet) script).2 =
      (o.ordinaryParts script (o.steps script).2).map (Part.recast g quiet) := by
  induction script generalizing o with
  | nil => rfl
  | cons s rest ih =>
      rw [isFeasible, Bool.and_eq_true] at hfeasible
      obtain ⟨hsuits, hrest⟩ := hfeasible
      have hothers := ih (hashed_step h hsuits) hrest
      rw [← step_recast g quiet h hsuits] at hothers
      cases s with
      | now call => exact congrArg₂ List.cons (part_answerNow_recast g quiet h call) hothers
      | start call => exact hothers

theorem asked_recast {script : List Step} (hfeasible : o.isFeasible script = true) :
    @asked ⟨g⟩ (o.recast g quiet) script =
      (o.asked script).map fun ask => (ask.1, ask.2.recast g quiet) := by
  induction script generalizing o with
  | nil => rfl
  | cons s rest ih =>
      rw [isFeasible, Bool.and_eq_true] at hfeasible
      obtain ⟨hsuits, hrest⟩ := hfeasible
      have hothers := ih (hashed_step h hsuits) hrest
      rw [← step_recast g quiet h hsuits] at hothers
      cases s with
      | now call => exact hothers
      | start call => exact congrArg (List.cons (call, o.plant.recast g quiet)) hothers

end

end Overlap

end PlantStore
