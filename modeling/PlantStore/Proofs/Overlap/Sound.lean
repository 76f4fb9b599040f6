import Mathlib.Data.List.Forall2
import PlantStore.Proofs.Overlap.Serves

/-! # The invariant of an overlap

`Overlap.Sound` says what holds of an admissible overlap while its script is played: the stopped
call and the waiting ones have found what they need, whoever waits without wanting the rights
waits behind a reader, only one waiting call has marked the root and no call that wants the
rights stands before it, and the plant is not freed. Every step that suits the overlap keeps
this. -/

namespace PlantStore

variable [KeyHash]

omit [KeyHash] in
/-- Who stands on a value is a reader. -/
theorem Stopped.isReader_of_readsValue {s : Stopped} {name : String}
    (h : s.readsValue name = true) : s.isReader = true := by
  cases s with
  | reading held answer => rfl
  | _ => cases h

/-- Who is stopped keeps others from the rights or is a reader. -/
theorem Stopped.Holds.busy {met p : Plant} {call : Call} {s : Stopped} (h : s.Holds met p call) :
    s.isReader = true ∨ s.hasRights = true := by
  cases h with
  | inserting hfind => exact .inr rfl
  | _ => exact .inl rfl

/-- Where a call is stopped it has found what it needs. -/
theorem Stopped.holds_of_of? {p : Plant} (hs : p.Searchable) {call : Call} {s : Stopped}
    (h : of? p call = some s) : s.Holds p p call := by
  cases call with
  | get key index =>
      obtain ⟨leaf, -, rfl⟩ := ofRead?_eq_some h
      exact @Holds.reading _ p p (.get key index) _ rfl
  | getAll key =>
      obtain ⟨leaf, -, rfl⟩ := ofRead?_eq_some h
      exact @Holds.reading _ p p (.getAll key) _ rfl
  | keys =>
      obtain rfl := of?_keys h
      exact .listing
  | set key seed values =>
      -- A write stops in the leaf if it is there, and otherwise before it links a new one.
      cases hfind : p.find? key with
      | some leaf =>
          obtain ⟨hseed, rfl⟩ := ofSet?_of_find?_some hfind h
          rw [(hs.find?_eq_some_iff.mp hfind).2.2]
          exact .updating hfind hseed
      | none =>
          obtain rfl := ofSet?_of_find?_none hfind h
          exact .inserting hfind
  | _ => cases h

/-- No call is stopped inside a freed plant. -/
theorem Stopped.of?_of_isDefunct {p : Plant} (hd : p.isDefunct = true) (call : Call) :
    of? p call = none := by
  have hfind (key : String) : p.find? key = none := Plant.find?_of_isDefunct hd key
  cases call with
  | set key seed values =>
      show ofSet? p key seed values = none
      rw [ofSet?, hfind, hd]
      rfl
  | get key index =>
      show ofRead? p key _ _ = none
      rw [ofRead?, hfind]
  | getAll key =>
      show ofRead? p key _ _ = none
      rw [ofRead?, hfind]
  | keys =>
      show (if p.isDefunct then none else some listing) = none
      rw [if_pos hd]
  | _ => rfl

namespace Overlap

/-- What holds of an overlap whose stopped call is `hold`, made on the plant `start`, and in
which the calls `asked` have been started, each on the plant that stands beside it. -/
structure Sound (start : Plant) (hold : Call) (asked : List (Call × Plant)) (o : Overlap) :
    Prop where
  wellFormed : o.plant.unmark.WellFormed
  holds : o.stopped.Holds start o.plant.unmark hold
  started_eq : o.started = o.waiting.map Started.waiting
  serves : List.Forall₂ (fun w ask => w.Serves ask.2 o.plant.unmark ask.1) o.waiting asked
  reader : ∀ w ∈ o.waiting, w.wantsRights = true ∨ o.stopped.isReader = true
  reads : ∀ name, o.valueAwaited name = true → o.stopped.readsValue name = true
  ordered : o.waiting.Pairwise fun a b => a.wantsRights = true → b.marksRoot = false
  first : ∀ w ∈ o.waiting, w.marksRoot = true → o.stopped.hasRights = false
  live : o.plant.isDefunct = false
  marked : o.plant.unmark = o.plant ∨ ∃ w ∈ o.waiting, w.marksRoot = true

theorem begun_sound {p : Plant} (hp : p.WellFormed) {hold : Call}
    (h : (Stopped.of? p hold).isSome = true) : (begun p hold).Sound p hold [] := by
  obtain ⟨s, hs⟩ := Option.isSome_iff_exists.mp h
  have hunmark : p.unmark = p := p.unmark_of_not hp.root_unmarked
  rw [begun_eq hs]
  refine ⟨?_, ?_, rfl, .nil, ?_, ?_, .nil, ?_, ?_, .inl hunmark⟩
  · show p.unmark.WellFormed
    rw [hunmark]
    exact hp
  · show s.Holds p p.unmark hold
    rw [hunmark]
    exact Stopped.holds_of_of? hp.toSearchable hs
  · intro w hw
    cases hw
  · intro name hname
    cases hname
  · intro w hw
    cases hw
  · apply Bool.eq_false_iff.mpr
    intro hd
    have hthrough := Stopped.of?_of_isDefunct hd hold
    rw [hs] at hthrough
    cases hthrough

/-! ### One step -/

section

variable {start : Plant} {hold : Call} {asked : List (Call × Plant)} {o : Overlap}
  (h : o.Sound start hold asked)

include h

/-- Who holds the writer mutex of a leaf is a reader, or waits for one. -/
theorem Sound.isReader_of_writerTaken {name : String} (hw : o.writerTaken name = true) :
    o.stopped.isReader = true := by
  rw [writerTaken, Bool.or_eq_true] at hw
  rcases hw with hw | hw
  · cases hs : o.stopped with
    | updating held seed values => rfl
    | _ =>
        rw [hs] at hw
        cases hw
  · exact Stopped.isReader_of_readsValue (h.reads name hw)

theorem Sound.isReader_of_valueAwaited {name : String} (hw : o.valueAwaited name = true) :
    o.stopped.isReader = true := by
  have htaken : o.writerTaken name = true := by rw [writerTaken, hw, Bool.or_true]
  exact h.isReader_of_writerTaken htaken

/-- The plant is not freed while a call is stopped. -/
theorem Sound.live_of_moves {q : Plant} (hmove : o.unmark.Moves q.unmark) :
    q.isDefunct = false := by
  have hlive : o.unmark.plant.isDefunct = false := by
    rw [plant_unmark, Plant.isDefunct_unmark]
    exact h.live
  rw [← Plant.isDefunct_unmark]
  generalize q.unmark = r at hmove ⊢
  cases hmove with
  | stays => exact hlive
  | writes name hf => exact (Plant.isDefunct_alter _ name hf).trans hlive
  | flags hf => exact (Plant.isDefunct_alter _ _ hf).trans hlive
  | links => exact hlive
  | removes q hreader hfree =>
      -- The stopped call is a reader or has the rights.
      rw [rightsTaken, Bool.or_eq_false_iff] at hfree
      rcases h.holds.busy with hreads | hrights
      · exact absurd hreads (Bool.eq_false_iff.mp hreader)
      · exact absurd hrights (Bool.eq_false_iff.mp hfree.1)

/-- A call that need not wait keeps the invariant. -/
theorem Sound.now {call : Call} (hfree : o.wait? call = none) :
    (o.step (.now call)).1.Sound start hold asked := by
  have hmove : o.unmark.Moves (o.answerNow call).plant.unmark := by
    rw [← plant_answerNow_unmark]
    exact moves_answerNow h.wellFormed ((o.wait?_unmark call).trans hfree)
  have hs : o.unmark.plant.Searchable := h.wellFormed.toSearchable
  refine ⟨?_, hmove.holds hs h.holds, h.started_eq, ?_, h.reader, h.reads, h.ordered,
    h.first, h.live_of_moves hmove, ?_⟩
  · show (o.answerNow call).plant.unmark.WellFormed
    rw [← plant_answerNow_unmark]
    exact wellFormed_answerNow h.wellFormed call
  · have hmem := (List.forall₂_and_left _ _).mpr ⟨fun w (hw : w ∈ o.waiting) => hw, h.serves⟩
    exact hmem.imp fun w ask hserves => hmove.serves hs hserves.1 (h.reader w hserves.1) hserves.2
  · -- A call that is answered at once neither puts a mark on nor takes one off.
    rcases h.marked with hp | hw
    · left
      have hunmark : o.unmark = o := by rw [unmark, hp]
      show (o.answerNow call).plant.unmark = (o.answerNow call).plant
      rw [← plant_answerNow_unmark, hunmark]
    · exact .inr hw

/-- Where a call that has to wait joins the others. -/
structure Joins (o : Overlap) (w : Waiting) : Prop where
  reader : w.wantsRights = true ∨ o.stopped.isReader = true
  reads : ∀ name, w.publishes name = true → o.stopped.readsValue name = true
  first : w.marksRoot = true → o.rightsTaken = false

theorem Sound.joins_of_waitSet? {key : String} {seed : Seed} {values : List Value} {w : Waiting}
    (hw : o.waitSet? key seed values = some w) : o.Joins w := by
  rcases waitSet?_eq_some hw with
    ⟨-, -, rfl⟩ | ⟨leaf, -, -, ⟨htaken, rfl⟩ | ⟨elements, hreads, -, rfl⟩⟩
  · exact ⟨.inl rfl, fun _ hp => (by cases hp), fun hm => (by cases hm)⟩
  · exact ⟨.inr (h.isReader_of_writerTaken htaken), fun _ hp => (by cases hp),
      fun hm => (by cases hm)⟩
  · refine ⟨.inr (Stopped.isReader_of_readsValue hreads), ?_, fun hm => (by cases hm)⟩
    intro name hp
    exact beq_iff_eq.mp hp ▸ hreads

theorem Sound.joins_of_waitFlags? {key : String} {flags : LeafFlags} {w : Waiting}
    (hw : o.waitFlags? key flags = some w) : o.Joins w := by
  obtain ⟨leaf, -, htaken, rfl⟩ := waitFlags?_eq_some hw
  exact ⟨.inr (h.isReader_of_writerTaken htaken), fun _ hp => (by cases hp),
    fun hm => (by cases hm)⟩

omit h in
theorem joins_of_waitDelete? {key : String} {w : Waiting} (hw : o.waitDelete? key = some w) :
    o.Joins w := by
  obtain ⟨index, -, hwaits⟩ := waitDelete?_eq_some hw
  rcases hwaits with ⟨-, rfl⟩ | ⟨hfree, rfl⟩
  · exact ⟨.inl rfl, fun _ hp => (by cases hp), fun hm => (by cases hm)⟩
  · exact ⟨.inl rfl, fun _ hp => (by cases hp), fun _ => hfree⟩

omit [KeyHash] h in
theorem joins_of_waitFree? {w : Waiting} (hw : o.waitFree? = some w) : o.Joins w := by
  rcases (waitFree?_eq_some hw).2 with ⟨-, rfl⟩ | ⟨hfree, rfl⟩
  · exact ⟨.inl rfl, fun _ hp => (by cases hp), fun hm => (by cases hm)⟩
  · exact ⟨.inl rfl, fun _ hp => (by cases hp), fun _ => hfree⟩

/-- A read waits for an update, and so behind the reader for which the update waits. -/
theorem Sound.isReader_of_readsAwaited {call : Call} (hread : o.readsAwaited call = true) :
    o.stopped.isReader = true := by
  have hof : ∀ key, o.ofLeaf key o.valueAwaited = true → o.stopped.isReader = true := by
    intro key hkey
    rw [ofLeaf] at hkey
    split at hkey
    · exact h.isReader_of_valueAwaited hkey
    · cases hkey
  have hany : (!o.plant.isDefunct &&
      (o.plant.root :: o.plant.chain).any fun leaf => o.valueAwaited leaf.name) = true →
      o.stopped.isReader = true := by
    intro hall
    obtain ⟨leaf, -, hleaf⟩ := List.any_eq_true.mp (Bool.and_eq_true_iff.mp hall).2
    exact h.isReader_of_valueAwaited hleaf
  cases call with
  | views => exact hany hread
  | exported order => exact hany hread
  | get key index => exact hof key hread
  | getAs kind key => exact hof key hread
  | getAll key => exact hof key hread
  | probe key index => exact hof key hread
  | numElements key => exact hof key hread
  | elementSize key index => exact hof key hread
  | type => exact hof rootKey hread
  | _ => cases hread

theorem Sound.joins {call : Call} {w : Waiting} (hw : o.wait? call = some w) : o.Joins w := by
  have hread : ∀ call, (if o.readsAwaited call then some (o.waitingRead call) else none) = some w →
      o.Joins w := by
    intro call hwait
    split at hwait
    next hreads =>
      cases hwait
      refine ⟨.inr (h.isReader_of_readsAwaited hreads), ?_, ?_⟩ <;>
      · cases call <;> intros <;> contradiction
    next => cases hwait
  cases call with
  | set key seed values => exact h.joins_of_waitSet? hw
  | setFlags key flags => exact h.joins_of_waitFlags? hw
  | delete key => exact joins_of_waitDelete? hw
  | free => exact joins_of_waitFree? hw
  | get key index => exact hread (.get key index) hw
  | getAs kind key => exact hread (.getAs kind key) hw
  | getAll key => exact hread (.getAll key) hw
  | probe key index => exact hread (.probe key index) hw
  | numElements key => exact hread (.numElements key) hw
  | elementSize key index => exact hread (.elementSize key index) hw
  | type => exact hread .type hw
  | views => exact hread .views hw
  | exported order => exact hread (.exported order) hw
  | _ => cases hw

omit h in
/-- A call that has to wait is the last of those that wait. -/
theorem waiting_start {call : Call} {w : Waiting} (hw : o.wait? call = some w) :
    (o.start call).waiting = o.waiting ++ [w] := by
  rw [Overlap.start, hw, waiting, waiting, List.filterMap_append]
  rfl

omit h in
/-- A call that has to wait does nothing to the plant but mark it. -/
theorem plant_start {call : Call} {w : Waiting} (hw : o.wait? call = some w) :
    (o.start call).plant = if w.marksRoot then o.plant.mark else o.plant := by
  rw [Overlap.start, hw]

omit h in
theorem plant_start_unmark {call : Call} {w : Waiting} (hw : o.wait? call = some w) :
    (o.start call).plant.unmark = o.plant.unmark := by
  rw [plant_start hw]
  split
  · exact o.plant.unmark_mark
  · rfl

omit h in
/-- What holds of all that wait, and of the call that joins them, holds of all afterwards. -/
theorem forall_waiting_start {call : Call} {w : Waiting} (hw : o.wait? call = some w)
    {property : Waiting → Prop} (hold : ∀ other ∈ o.waiting, property other)
    (hnew : property w) : ∀ other ∈ (o.start call).waiting, property other := by
  rw [waiting_start hw]
  intro other hother
  rcases List.mem_append.mp hother with hmem | hlast
  · exact hold other hmem
  · obtain rfl := List.mem_singleton.mp hlast
    exact hnew

omit h [KeyHash] in
/-- A removal has the rights only if nobody else has them or waits for them. -/
theorem Joins.alone {w : Waiting} (hjoins : o.Joins w) (hmarks : w.marksRoot = true) :
    o.stopped.hasRights = false ∧ ∀ other ∈ o.waiting, other.wantsRights = false := by
  have hnone := hjoins.first hmarks
  rw [rightsTaken, Bool.or_eq_false_iff] at hnone
  refine ⟨hnone.1, ?_⟩
  intro other hother
  exact Bool.eq_false_iff.mpr (List.any_eq_false.mp hnone.2 other hother)

theorem Sound.serves_start {call : Call} {w : Waiting} (hw : o.wait? call = some w) :
    List.Forall₂ (fun w ask => w.Serves ask.2 o.plant.unmark ask.1) (o.waiting ++ [w])
      (asked ++ [(call, o.plant)]) := by
  have hunmark : o.unmark.wait? call = some w := (o.wait?_unmark call).trans hw
  have hserves : w.Serves o.plant o.plant.unmark call :=
    (serves_of_wait? h.wellFormed.toSearchable hunmark).met_of_unmark
  exact List.rel_append h.serves (.cons hserves .nil)

theorem Sound.marked_start {call : Call} {w : Waiting} (hw : o.wait? call = some w) :
    (o.start call).plant.unmark = (o.start call).plant ∨
      ∃ other ∈ (o.start call).waiting, other.marksRoot = true := by
  rw [plant_start hw, waiting_start hw]
  cases hm : w.marksRoot with
  | true => exact .inr ⟨w, List.mem_append_right _ (List.mem_singleton_self w), hm⟩
  | false =>
      rcases h.marked with hp | ⟨other, hother, hmarks⟩
      · exact .inl hp
      · exact .inr ⟨other, List.mem_append_left _ hother, hmarks⟩

/-- A call that has to wait keeps the invariant, as one more that has been started. -/
theorem Sound.started {call : Call} {w : Waiting} (hw : o.wait? call = some w) :
    (o.step (.start call)).1.Sound start hold (asked ++ [(call, o.plant)]) := by
  show (o.start call).Sound start hold (asked ++ [(call, o.plant)])
  have hjoins := h.joins hw
  have hstopped : (o.start call).stopped = o.stopped := by rw [Overlap.start, hw]
  have hstarted : (o.start call).started = o.started ++ [.waiting w] := by
    rw [Overlap.start, hw]
  have hplant := plant_start_unmark hw
  refine ⟨hplant ▸ h.wellFormed, hstopped ▸ hplant ▸ h.holds, ?_, ?_, ?_, ?_, ?_, ?_,
    ?_, h.marked_start hw⟩
  · rw [waiting_start hw, List.map_append, hstarted, h.started_eq]
    rfl
  · rw [waiting_start hw, hplant]
    exact h.serves_start hw
  · rw [hstopped]
    exact forall_waiting_start hw h.reader hjoins.reader
  -- The new call is the last; what the others rely on has not changed.
  · intro name hname
    rw [valueAwaited, List.any_eq_true] at hname
    obtain ⟨other, hother, hpublishes⟩ := hname
    have hold : ∀ other ∈ o.waiting, other.publishes name = true →
        o.stopped.readsValue name = true := fun other hmem hp =>
      h.reads name (List.any_eq_true.mpr ⟨other, hmem, hp⟩)
    rw [hstopped]
    exact forall_waiting_start hw hold (hjoins.reads name) other hother hpublishes
  · -- Who comes last may have marked the root only if nobody before wants the rights.
    rw [waiting_start hw, List.pairwise_append]
    refine ⟨h.ordered, List.pairwise_singleton _ _, ?_⟩
    intro a ha b hb hwants
    obtain rfl := List.mem_singleton.mp hb
    apply Bool.eq_false_iff.mpr
    intro hmarks
    rw [(hjoins.alone hmarks).2 a ha] at hwants
    cases hwants
  · rw [hstopped]
    exact forall_waiting_start hw h.first fun hmarks => (hjoins.alone hmarks).1
  · rw [← Plant.isDefunct_unmark, hplant, Plant.isDefunct_unmark]
    exact h.live

end

/-! ### All steps -/

/-- The calls that a script starts, each with the plant that it comes upon. -/
def asked (o : Overlap) : List Step → List (Call × Plant)
  | [] => []
  | .now call :: rest => asked (o.step (.now call)).1 rest
  | .start call :: rest => (call, o.plant) :: asked (o.step (.start call)).1 rest

/-- Every script that suits the overlap keeps the invariant. -/
theorem Sound.steps {start : Plant} {hold : Call} {before : List (Call × Plant)} {o : Overlap}
    (h : o.Sound start hold before) {script : List Step} (hfeasible : o.isFeasible script = true) :
    (o.steps script).1.Sound start hold (before ++ o.asked script) := by
  replace hfeasible := feasible_of_isFeasible hfeasible
  induction hfeasible generalizing before with
  | nil =>
      rw [asked, List.append_nil]
      exact h
  | now hfree hrest ih => exact ih (h.now hfree)
  | start hw hrest ih =>
      rw [asked, List.append_cons]
      exact ih (h.started hw)

end Overlap
end PlantStore
