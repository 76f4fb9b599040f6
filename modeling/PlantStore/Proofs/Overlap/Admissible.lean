import PlantStore.Overlap.Basic
import PlantStore.Proofs.Mark

/-! # Admissible overlaps

A script says of each call whether it is made and answered at once or started on a thread of its
own. It suits an overlap if no call that is answered at once would have to wait and every call
that is started does. The call that is to be stopped must not run through. A plant is reachable if
calls and such overlaps lead to it from a new one. -/

namespace PlantStore

/-- Whether there is a plant in which the call can be stopped inside. -/
def Call.canStop : Call → Bool
  | .set .. | .get .. | .getAll _ | .keys => true
  | _ => false

/-! ### Where a call is stopped -/

namespace Stopped

variable [KeyHash] {p : Plant}

theorem canStop_of_of? {call : Call} (h : (of? p call).isSome = true) : call.canStop = true := by
  cases call with
  | set | get | getAll | keys => rfl
  | _ => cases h

variable {key : String} {s : Stopped}

/-- A read is stopped on its leaf. -/
theorem ofRead?_eq_some {copies : Leaf → Bool} {answer : Answer}
    (h : ofRead? p key copies answer = some s) :
    ∃ leaf, p.find? key = some leaf ∧ s = .reading leaf.name answer := by
  rw [ofRead?] at h
  split at h
  next leaf hfind =>
    split at h
    · exact ⟨leaf, hfind, (Option.some.inj h).symm⟩
    · cases h
  next => cases h

theorem of?_keys (h : of? p .keys = some s) : s = .listing := by
  have hlisting : (if p.isDefunct then none else some listing) = some s := h
  split at hlisting
  · cases hlisting
  · exact (Option.some.inj hlisting).symm

variable {seed : Seed} {values : List Value}

/-- A write is stopped on a leaf that is there. -/
theorem ofSet?_of_find?_some {leaf : Leaf} (hfind : p.find? key = some leaf)
    (h : ofSet? p key seed values = some s) :
    leaf.seed = seed ∧ s = .updating leaf.name seed values := by
  rw [ofSet?, hfind] at h
  dsimp only at h
  split at h
  · cases h
  next hallowed =>
    split at h
    · cases h
    · split at h
      · cases h
      · rw [Bool.or_eq_true, not_or, decide_eq_true_eq, Decidable.not_not] at hallowed
        exact ⟨hallowed.1, (Option.some.inj h).symm⟩

/-- A write that is to make a leaf is stopped with the rights. -/
theorem ofSet?_of_find?_none (hfind : p.find? key = none)
    (h : ofSet? p key seed values = some s) : s = .inserting key seed values := by
  rw [ofSet?, hfind] at h
  dsimp only at h
  split at h
  · cases h
  · exact (Option.some.inj h).symm

end Stopped

namespace Overlap

/-- The overlap without the mark of a waiting removal. -/
def unmark (o : Overlap) : Overlap := { o with plant := o.plant.unmark }

@[simp] theorem plant_unmark (o : Overlap) : o.unmark.plant = o.plant.unmark := rfl

variable [KeyHash]

/-- An overlap in which a call has just been stopped. -/
def begun (p : Plant) (hold : Call) : Overlap :=
  ⟨(Stopped.begin p hold).2, (Stopped.begin p hold).1, []⟩

/-- Whether a call that is answered at once need not wait, or one that is started must. -/
def suits (o : Overlap) : Step → Bool
  | .now call => (o.wait? call).isNone
  | .start call => (o.wait? call).isSome

/-- Whether every step suits the overlap as it is then. -/
def isFeasible (o : Overlap) : List Step → Bool
  | [] => true
  | s :: rest => o.suits s && isFeasible (o.step s).1 rest

/-- The same, step by step, with the way in which each started call waits. -/
inductive Feasible : Overlap → List Step → Prop
  | nil {o : Overlap} : Feasible o []
  | now {o : Overlap} {call : Call} {rest : List Step} (hfree : o.wait? call = none)
    (hrest : Feasible (o.step (.now call)).1 rest) : Feasible o (.now call :: rest)
  | start {o : Overlap} {call : Call} {rest : List Step} {w : Waiting}
    (hw : o.wait? call = some w) (hrest : Feasible (o.step (.start call)).1 rest) :
    Feasible o (.start call :: rest)

theorem feasible_of_isFeasible {o : Overlap} {script : List Step}
    (h : o.isFeasible script = true) : o.Feasible script := by
  induction script generalizing o with
  | nil => exact .nil
  | cons s rest ih =>
      rw [isFeasible, Bool.and_eq_true] at h
      obtain ⟨hsuits, hrest⟩ := h
      cases s with
      | now call => exact .now (Option.isNone_iff_eq_none.mp hsuits) (ih hrest)
      | start call =>
          obtain ⟨w, hw⟩ := Option.isSome_iff_exists.mp hsuits
          exact .start hw (ih hrest)

/-- A call that is stopped, and a script that suits the overlap. -/
def Admissible (p : Plant) (hold : Call) (script : List Step) : Prop :=
  (Stopped.of? p hold).isSome = true ∧ (begun p hold).isFeasible script = true

instance (p : Plant) (hold : Call) (script : List Step) : Decidable (Admissible p hold script) :=
  inferInstanceAs (Decidable (_ ∧ _))

theorem Admissible.canStop {p : Plant} {hold : Call} {script : List Step}
    (h : Admissible p hold script) : hold.canStop = true := Stopped.canStop_of_of? h.1

/-- An overlap begins with the call where it is stopped, and with the plant as it was. -/
theorem begun_eq {p : Plant} {hold : Call} {s : Stopped} (h : Stopped.of? p hold = some s) :
    begun p hold = ⟨p, s, []⟩ := by
  rw [begun, Stopped.begin, h]

/-! ### How a call waits -/

section

variable {o : Overlap} {w : Waiting}

/-- A write waits for the rights if it is to make the leaf, and otherwise for the writer mutex or,
if it has passed every check, for the reader of the value. -/
theorem waitSet?_eq_some {key : String} {seed : Seed} {values : List Value}
    (h : o.waitSet? key seed values = some w) :
    (o.plant.find? key = none ∧ o.rightsTaken = true ∧ w = .inserting key seed values) ∨
    ∃ leaf, o.plant.find? key = some leaf ∧ leaf.seed = seed ∧
      (o.writerTaken leaf.name = true ∧ w = .updating leaf.name seed values ∨
        ∃ elements, o.stopped.readsValue leaf.name = true ∧
          Plant.renewal (o.plant.place? key == some .root) leaf seed values = .ok elements ∧
          w = .publishing leaf.name elements) := by
  rw [waitSet?] at h
  cases hfind : o.plant.find? key with
  | none =>
      rw [hfind] at h
      obtain ⟨hwants, hw⟩ := Option.ite_none_right_eq_some.mp h
      exact .inl ⟨rfl, (Bool.and_eq_true_iff.mp hwants).2, (Option.some.inj hw).symm⟩
  | some leaf =>
      rw [hfind] at h
      obtain ⟨hseed, h⟩ := Option.ite_none_left_eq_some.mp h
      refine .inr ⟨leaf, rfl, Decidable.not_not.mp hseed, ?_⟩
      split at h
      next htaken => exact .inl ⟨htaken, (Option.some.inj h).symm⟩
      next =>
        cases hr : Plant.renewal (o.plant.place? key == some .root) leaf seed values with
        | error e =>
            rw [hr] at h
            cases h
        | ok elements =>
            rw [hr] at h
            obtain ⟨hreads, hw⟩ := Option.ite_none_right_eq_some.mp h
            exact .inr ⟨elements, hreads, rfl, (Option.some.inj hw).symm⟩

theorem waitFlags?_eq_some {key : String} {flags : LeafFlags}
    (h : o.waitFlags? key flags = some w) :
    ∃ leaf, o.plant.find? key = some leaf ∧ o.writerTaken leaf.name = true ∧
      w = .flagging leaf.name flags := by
  rw [waitFlags?] at h
  cases hfind : o.plant.find? key with
  | none =>
      rw [hfind] at h
      cases h
  | some leaf =>
      rw [hfind] at h
      obtain ⟨htaken, hw⟩ := Option.ite_none_right_eq_some.mp h
      exact ⟨leaf, rfl, htaken, (Option.some.inj hw).symm⟩

/-- A removal that has found its leaf waits for the rights, or has them and waits for the
readers. -/
theorem waitDelete?_eq_some {key : String} (h : o.waitDelete? key = some w) :
    ∃ index, o.plant.place? key = some (.link index) ∧
      (o.rightsTaken = true ∧ w = .deleting key ∨
        o.rightsTaken = false ∧ w = .removing key index) := by
  rw [waitDelete?] at h
  cases hplace : o.plant.place? key with
  | none =>
      rw [hplace] at h
      cases h
  | some place =>
      rw [hplace] at h
      cases place with
      | root => cases h
      | link index =>
          obtain ⟨-, h⟩ := Option.ite_none_left_eq_some.mp h
          refine ⟨index, rfl, ?_⟩
          split at h
          next htaken => exact .inl ⟨htaken, (Option.some.inj h).symm⟩
          next hfree =>
            obtain ⟨-, hw⟩ := Option.ite_none_right_eq_some.mp h
            exact .inr ⟨Bool.eq_false_iff.mpr hfree, (Option.some.inj hw).symm⟩

omit [KeyHash] in
/-- A `free` whose root may go waits for the rights, or has them and waits for the readers, behind
the undeletable leaves at the front of the chain. -/
theorem waitFree?_eq_some (h : o.waitFree? = some w) :
    o.plant.root.isUndeletable = false ∧
      (o.rightsTaken = true ∧ w = .freeing ∨
        o.rightsTaken = false ∧
          w = .sweeping (o.plant.chain.takeWhile Leaf.isUndeletable).length) := by
  rw [waitFree?] at h
  obtain ⟨hroot, h⟩ := Option.ite_none_left_eq_some.mp h
  refine ⟨Bool.eq_false_iff.mpr hroot, ?_⟩
  split at h
  next htaken => exact .inl ⟨htaken, (Option.some.inj h).symm⟩
  next hfree =>
    obtain ⟨-, h⟩ := Option.ite_none_left_eq_some.mp h
    obtain ⟨-, hw⟩ := Option.ite_none_right_eq_some.mp h
    exact .inr ⟨Bool.eq_false_iff.mpr hfree, (Option.some.inj hw).symm⟩

end

/-! ### The mark and who has to wait -/

section

variable (o : Overlap)

theorem ofLeaf_unmark (key : String) (property : String → Bool) :
    o.unmark.ofLeaf key property = o.ofLeaf key property := by
  rw [ofLeaf, ofLeaf, plant_unmark]
  obtain h | ⟨leaf, hfind, hmarked⟩ := o.plant.find?_unmark key
  · rw [h]
  · rw [hfind, hmarked]
    rfl

theorem readsAwaited_unmark (call : Call) : o.unmark.readsAwaited call = o.readsAwaited call := by
  have hof : ∀ key, o.unmark.ofLeaf key o.unmark.valueAwaited = o.ofLeaf key o.valueAwaited :=
    fun key => o.ofLeaf_unmark key o.valueAwaited
  have hdefunct : o.unmark.plant.isDefunct = o.plant.isDefunct := o.plant.isDefunct_unmark
  unfold readsAwaited
  cases call with
  | views => rw [hdefunct]; rfl
  | exported order => rw [hdefunct]; rfl
  | get key index => exact hof key
  | getAs kind key => exact hof key
  | getAll key => exact hof key
  | probe key index => exact hof key
  | numElements key => exact hof key
  | elementSize key index => exact hof key
  | type => exact hof rootKey
  | _ => rfl

theorem waitSet?_unmark (key : String) (seed : Seed) (values : List Value) :
    o.unmark.waitSet? key seed values = o.waitSet? key seed values := by
  rw [waitSet?, waitSet?]
  simp only [plant_unmark, Plant.place?_unmark, Plant.isDefunct_unmark]
  obtain h | ⟨leaf, hfind, hmarked⟩ := o.plant.find?_unmark key
  · rw [h]
    rfl
  · rw [hfind, hmarked]
    simp only [Leaf.seed_unmark, Leaf.name_unmark, Leaf.renewal_unmark]
    rfl

theorem waitFlags?_unmark (key : String) (flags : LeafFlags) :
    o.unmark.waitFlags? key flags = o.waitFlags? key flags := by
  rw [waitFlags?, waitFlags?, plant_unmark]
  obtain h | ⟨leaf, hfind, hmarked⟩ := o.plant.find?_unmark key
  · rw [h]
    rfl
  · rw [hfind, hmarked]
    rfl

theorem waitDelete?_unmark (key : String) : o.unmark.waitDelete? key = o.waitDelete? key := by
  rw [waitDelete?, waitDelete?, plant_unmark, Plant.place?_unmark]
  rfl

omit [KeyHash] in
theorem waitFree?_unmark : o.unmark.waitFree? = o.waitFree? := by
  rw [waitFree?, waitFree?, plant_unmark, Plant.root_unmark, Leaf.isUndeletable_unmark,
    Plant.isDefunct_unmark]
  rfl

theorem waitingRead_unmark (call : Call) : o.unmark.waitingRead call = o.waitingRead call := by
  have hnames : o.unmark.namesUpToAwaited = o.namesUpToAwaited := by
    rw [namesUpToAwaited, namesUpToAwaited, plant_unmark, Plant.names_unmark]
    rfl
  cases call with
  | exported order =>
      simp only [waitingRead, hnames, plant_unmark, Plant.entriesOf_unmark]
  | views =>
      have hviews : ∀ names : List String,
          names.map o.plant.unmark.view = names.map o.plant.view := fun names =>
        List.map_congr_left fun key _ => o.plant.view_unmark key
      simp only [waitingRead, hnames, plant_unmark, Plant.length_unmark, Plant.isDefunct_unmark,
        hviews]
  | _ => rfl

/-- Whether and how a call waits does not depend on the mark. -/
theorem wait?_unmark (call : Call) : o.unmark.wait? call = o.wait? call := by
  cases call with
  | set key seed values => exact o.waitSet?_unmark key seed values
  | setFlags key flags => exact o.waitFlags?_unmark key flags
  | delete key => exact o.waitDelete?_unmark key
  | free => exact o.waitFree?_unmark
  | _ =>
      simp only [wait?]
      rw [readsAwaited_unmark, waitingRead_unmark]

/-- What a call that is made at once does to the plant does not depend on the mark. -/
theorem plant_answerNow_unmark (call : Call) :
    (o.unmark.answerNow call).plant = (o.answerNow call).plant.unmark := by
  cases call with
  | setHostWord key word =>
      have hof : o.unmark.ofLeaf key (fun name => o.unmark.stopped.readsValue name) =
          o.ofLeaf key fun name => o.stopped.readsValue name := o.ofLeaf_unmark key _
      rw [answerNow, answerNow, hof]
      cases o.ofLeaf key fun name => o.stopped.readsValue name with
      | true => rfl
      | false =>
          rw [if_neg Bool.false_ne_true, if_neg Bool.false_ne_true]
          exact o.plant.plant_perform_unmark (.setHostWord key word)
  | hostWordOf key =>
      have hof : o.unmark.ofLeaf key o.unmark.valueAwaited = o.ofLeaf key o.valueAwaited :=
        o.ofLeaf_unmark key o.valueAwaited
      rw [answerNow, answerNow, hof]
      cases o.ofLeaf key o.valueAwaited <;> rfl
  | _ => exact o.plant.plant_perform_unmark _

end

end Overlap

/-- A plant that calls and overlaps have made out of a new one. -/
inductive Plant.Reachable [KeyHash] : Plant → Prop
  | make (type : Int32) (debug : Bool) : Reachable (Plant.make type debug)
  | call {p : Plant} (h : Reachable p) (c : Call) : Reachable (p.perform c).plant
  | overlap {p : Plant} (h : Reachable p) {hold : Call} {script : List Step}
    (hadm : Overlap.Admissible p hold script) : Reachable (Overlap.run p hold script).plant

end PlantStore
