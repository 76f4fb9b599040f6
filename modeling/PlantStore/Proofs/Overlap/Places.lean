import PlantStore.Proofs.Overlap.Serial

/-! # The places of the calls

Where the calls of an overlap have their places in a serial order. The ordinary calls are in
order already. The stopped call comes before them if its answer was settled when it was stopped,
and behind them if it still had something to do. Of the started calls the updates that waited
for the reader come first, then the reads that waited for those updates, and then all others in
the order of their turns. -/

namespace PlantStore

/-- When a waiting call has its place in the order, once the stopped call has left. -/
inductive Phase
  | publishes | reads | turns
  deriving DecidableEq

/-- Updates that have passed every check come first, then the reads that waited for them. -/
def Waiting.phase : Waiting → Phase
  | publishing .. => .publishes
  | reading _ | exporting .. | viewing .. => .reads
  | updating .. | flagging .. | inserting .. | removing .. | deleting _ | sweeping _
  | freeing => .turns

theorem Waiting.publishes_of_phase {w : Waiting} (h : w.phase = .publishes) :
    ∃ name, w.publishes name = true := by
  cases w with
  | publishing name elements => exact ⟨name, beq_self_eq_true name⟩
  | _ => cases h

variable [KeyHash]

namespace Overlap

/-! ### The ordinary calls -/

/-- A call that is answered at once agrees with the plant that it comes upon, or is refused for a
lock. -/
theorem serial_now {o : Overlap} {call : Call} {rest : List Part} {q : Plant}
    (hrest : Serial Part.Agrees (o.answerNow call).plant.unmark rest q) :
    Serial Part.Agrees o.plant.unmark
      (⟨.ordinary, call, o.plant, (o.answerNow call).answer⟩ :: rest) q := by
  -- Only the calls on the host's word and the description take notice of the overlap.
  have hperform : (o.answerNow call) = o.plant.perform call → call ≠ .describe →
      Serial Part.Agrees o.plant.unmark
        (⟨.ordinary, call, o.plant, (o.answerNow call).answer⟩ :: rest) q := by
    intro hnow hcall
    rw [hnow, ← o.plant.plant_perform_unmark] at hrest
    refine .next (.exact ?_) hrest
    rw [Part.Exact, hnow, o.plant.answer_perform_unmark hcall]
  cases call with
  | setHostWord key word =>
      cases hreads : o.ofLeaf key fun name => o.stopped.readsValue name with
      | true =>
          have hnow : o.answerNow (.setHostWord key word) =
              ⟨.unit (.error .concurrency), o.plant, []⟩ := if_pos hreads
          rw [hnow] at hrest ⊢
          exact .skip rfl hrest
      | false => exact hperform (if_neg (Bool.eq_false_iff.mp hreads)) (fun hc => by cases hc)
  | hostWordOf key =>
      cases hawaited : o.ofLeaf key o.valueAwaited with
      | true =>
          have hnow : o.answerNow (.hostWordOf key) =
              ⟨.word (.error .concurrency), o.plant, []⟩ := if_pos hawaited
          rw [hnow] at hrest ⊢
          exact .skip rfl hrest
      | false => exact hperform (if_neg (Bool.eq_false_iff.mp hawaited)) (fun hc => by cases hc)
  | describe =>
      cases hm : o.plant.root.flags.contains .removing with
      | true =>
          have hagrees : Part.Agrees o.plant.unmark
              ⟨.ordinary, .describe, o.plant.unmark.mark, .text o.plant.unmark.mark.describe⟩ :=
            .marked
          rw [o.plant.mark_unmark hm] at hagrees
          exact .next hagrees hrest
      | false =>
          refine .next (.exact ?_) hrest
          rw [o.plant.unmark_of_not hm]
          rfl
  | _ => exact hperform rfl (fun hc => by cases hc)

/-- The calls that are answered at once are in order already. -/
theorem serial_ordinary {o : Overlap} {script : List Step}
    (h : o.isFeasible script = true) :
    Serial Part.Agrees o.plant.unmark (o.ordinaryParts script (o.steps script).2)
      (o.steps script).1.plant.unmark := by
  replace h := feasible_of_isFeasible h
  induction h with
  | nil => exact .done
  | now hfree hrest ih => exact serial_now ih
  | @start o call rest w hw hrest ih =>
      have hplant : (o.step (.start call)).1.plant.unmark = o.plant.unmark :=
        plant_start_unmark hw
      rw [hplant] at ih
      exact ih

theorem role_of_mem_ordinaryParts {o : Overlap} {script : List Step}
    {during : List (Option Answer)} :
    ∀ part ∈ o.ordinaryParts script during, part.role = .ordinary := by
  induction script generalizing o during with
  | nil =>
      intro part hpart
      cases hpart
  | cons s rest ih =>
      intro part hpart
      cases s with
      | now call =>
          cases during with
          | nil => cases hpart
          | cons answer during =>
              cases answer with
              | none => cases hpart
              | some answer =>
                  rcases List.mem_cons.mp hpart with rfl | hrest
                  · rfl
                  · exact ih part hrest
      | start call =>
          cases during with
          | nil => cases hpart
          | cons answer during =>
              cases answer with
              | none => exact ih part hpart
              | some answer => cases hpart

/-! ### The stopped call -/

/-- A stopped call has its answer already and changes nothing, or it goes on as if it were made
when it goes on. -/
theorem finish_of_holds {met p : Plant} {call : Call} {s : Stopped}
    (h : s.Holds met p call) (hp : p.Searchable) :
    ((met.perform call).plant = met ∧ ∀ q, s.finish q = ((met.perform call).answer, q)) ∨
    s.finish p = ((p.perform call).answer, (p.perform call).plant) := by
  cases h with
  | reading hplant => exact .inl ⟨hplant, fun _ => rfl⟩
  | listing => exact .inr rfl
  | @updating key seed values leaf hfind hseed =>
      right
      obtain ⟨ha, hplant⟩ :=
        Plant.set_of_find?_some (hp.isDefunct_of_find? hfind) hfind seed values
      show (Answer.unit (p.updateNow (leafName key) seed values).answer,
        (p.updateNow (leafName key) seed values).plant) =
        (Answer.unit (p.set key seed values).answer, (p.set key seed values).plant)
      rw [hp.updateNow_leafName, ha, hplant]
  | inserting hfind => exact .inr rfl

/-! ### The started calls -/

/-- What a waiting call still relies on when the stopped call has left. -/
inductive Due (met p : Plant) : Call → Waiting → Prop
  | early {call : Call} {w : Waiting} (hphase : w.phase ≠ .turns) : Due met p call w
  | updating {key : String} {seed : Seed} {values : List Value} (hmet : met.has key = true) :
    Due met p (.set key seed values) (.updating (leafName key) seed values)
  | flagging {key : String} {flags : LeafFlags} :
    Due met p (.setFlags key flags) (.flagging (leafName key) flags)
  | inserting {key : String} {seed : Seed} {values : List Value} :
    Due met p (.set key seed values) (.inserting key seed values)
  | removing {key : String} {index : Nat} (hplace : p.place? key = some (.link index)) :
    Due met p (.delete key) (.removing key index)
  | deleting {key : String} (hd : p.isDefunct = false) (hkey : leafName key ≠ rootKey) :
    Due met p (.delete key) (.deleting key)

theorem due_of_serves {met p : Plant} {call : Call} {w : Waiting} (h : w.Serves met p call)
    (hcall : call ≠ .free) : Due met p call w := by
  cases h with
  | updating hmet hfind hseed => exact .updating hmet
  | flagging => exact .flagging
  | inserting hfind => exact .inserting
  | removing hplace => exact .removing hplace
  | deleting hd hkey => exact .deleting hd hkey
  | sweeping => exact absurd rfl hcall
  | freeing => exact absurd rfl hcall
  | _ => exact .early (fun hphase => by cases hphase)

/-- What a waiting call relies on stays true while the plant is not freed and, if it is a removal
that has its place, no leaf moves. -/
theorem Due.after {met p q : Plant} {call : Call} {w : Waiting} (h : Due met p call w)
    (hd : q.isDefunct = p.isDefunct)
    (hplaces : w.marksRoot = true → ∀ key, q.place? key = p.place? key) : Due met q call w := by
  cases h with
  | early hphase => exact .early hphase
  | updating hmet => exact .updating hmet
  | flagging => exact .flagging
  | inserting => exact .inserting
  | removing hplace => exact .removing ((hplaces rfl _).trans hplace)
  | deleting hlive hkey => exact .deleting (hd.trans hlive) hkey

/-- A call that has its place before the turns changes nothing at its turn. -/
theorem finish_of_phase (seen p : Plant) {w : Waiting} (h : w.phase ≠ .turns) :
    (w.finish seen p).2 = p := by
  cases w with
  | publishing name elements => rfl
  | reading call => rfl
  | exporting order done left => rfl
  | viewing length isDefunct done left => rfl
  | _ => exact absurd rfl h

/-- A waiting call goes on as if it were made at its turn, or it is a write whose leaf is
gone. -/
theorem serial_turn {met p seen : Plant} {call : Call} {w : Waiting} (h : Due met p call w)
    (hw : w.phase = .turns) (hp : p.WellFormed) {rest : List Part} {q : Plant}
    (hrest : Serial Part.Agrees (w.finish seen p).2 rest q) :
    Serial Part.Agrees p (⟨.started, call, met, (w.finish seen p).1⟩ :: rest) q := by
  have hexact : w.finish seen p = ((p.perform call).answer, (p.perform call).plant) →
      Serial Part.Agrees p (⟨.started, call, met, (w.finish seen p).1⟩ :: rest) q := by
    intro hfinish
    rw [hfinish] at hrest ⊢
    exact .next (.exact rfl) hrest
  cases h with
  | early hphase => exact absurd hw hphase
  | @updating key seed values hmet =>
      have hfinish : Waiting.finish seen p (.updating (leafName key) seed values) =
          (.unit (p.updateNow key seed values).answer, (p.updateNow key seed values).plant) := by
        rw [← hp.updateNow_leafName]
        rfl
      cases hfind : p.find? key with
      | some leaf =>
          obtain ⟨ha, hplant⟩ :=
            Plant.set_of_find?_some (hp.isDefunct_of_find? hfind) hfind seed values
          apply hexact
          rw [hfinish, ← ha, ← hplant]
          rfl
      -- Another call has taken the leaf out meanwhile: the write is refused and changes nothing.
      | none =>
          have hgone : p.updateNow key seed values = ⟨.error .noSuchLeaf, p, []⟩ := by
            rw [Plant.updateNow, Plant.update, hfind]
          rw [hfinish, hgone] at hrest ⊢
          exact .skip ⟨by simp, hmet, Plant.has_eq_false_iff.mpr hfind, rfl⟩
            hrest
  | @flagging key flags =>
      apply hexact
      show (Answer.unit (p.setFlags (leafName key) flags).answer,
        (p.setFlags (leafName key) flags).plant) =
        (Answer.unit (p.setFlags key flags).answer, (p.setFlags key flags).plant)
      rw [hp.setFlags_leafName]
  | inserting => exact hexact rfl
  | @removing key index hplace =>
      apply hexact
      show (Answer.unit (p.reportDeleted key (p.unmark.removeAt index)).answer,
        (p.reportDeleted key (p.unmark.removeAt index)).plant) =
        (Answer.unit (p.delete key).answer, (p.delete key).plant)
      rw [p.unmark_of_not hp.root_unmarked, Plant.delete_of_link hplace]
  | @deleting key hd hkey =>
      apply hexact
      show (Answer.unit (p.deleteAfterWait key).answer, (p.deleteAfterWait key).plant) =
        (Answer.unit (p.delete key).answer, (p.delete key).plant)
      rw [hp.deleteAfterWait_eq_delete hd hkey]

/-- A waiting call does not free the plant, and if it does not want the rights it moves no
leaf. -/
theorem Due.finish_keeps {met p : Plant} (seen : Plant) {call : Call} {w : Waiting}
    (h : Due met p call w) (hp : p.WellFormed) :
    (w.finish seen p).2.isDefunct = p.isDefunct ∧
      (w.wantsRights = false → ∀ key, (w.finish seen p).2.place? key = p.place? key) := by
  cases h with
  | early hphase =>
      rw [finish_of_phase seen p hphase]
      exact ⟨rfl, fun _ _ => rfl⟩
  | @updating key seed values hmet =>
      exact ⟨hp.isDefunct_updateNow _ seed values, fun _ => hp.place?_updateNow _ seed values⟩
  | @flagging key flags =>
      exact ⟨hp.isDefunct_change _ (Leaf.isContent_flags flags),
        fun _ => hp.place?_change _ (Leaf.isContent_flags flags)⟩
  | @inserting key seed values =>
      exact ⟨hp.isDefunct_set key seed values, fun hwants => by cases hwants⟩
  | @removing key index hplace =>
      refine ⟨?_, fun hwants => by cases hwants⟩
      show (p.reportDeleted key (p.unmark.removeAt index)).plant.isDefunct = p.isDefunct
      rw [p.unmark_of_not hp.root_unmarked, ← Plant.delete_of_link hplace]
      exact hp.isDefunct_delete key
  | @deleting key hd hkey =>
      refine ⟨?_, fun hwants => by cases hwants⟩
      show (p.deleteAfterWait key).plant.isDefunct = p.isDefunct
      rw [hp.deleteAfterWait_eq_delete hd hkey]
      exact hp.isDefunct_delete key

/-! ### All started calls -/

/-- The waiting calls, each with what it was asked, as parts with their answers. -/
def servedParts (seen : Plant) : Plant → List (Waiting × Call × Plant) → List (Waiting × Part)
  | _, [] => []
  | p, (w, call, met) :: rest =>
    (w, ⟨.started, call, met, (w.finish seen p).1⟩) ::
      servedParts seen (w.finish seen p).2 rest

/-- The parts that have their place at the same time, in the order of their turns. -/
def ofPhase (phase : Phase) (served : List (Waiting × Part)) : List Part :=
  (served.filter fun entry => entry.1.phase = phase).map Prod.snd

omit [KeyHash] in
theorem ofPhase_cons (phase : Phase) (w : Waiting) (part : Part)
    (served : List (Waiting × Part)) :
    ofPhase phase ((w, part) :: served) =
      if w.phase = phase then part :: ofPhase phase served else ofPhase phase served := by
  rw [ofPhase, List.filter_cons]
  by_cases h : w.phase = phase
  · rw [if_pos h, if_pos (decide_eq_true h)]
    rfl
  · rw [if_neg h, if_neg (by simp [h])]
    rfl

theorem servedParts_append (seen p : Plant) (a b : List (Waiting × Call × Plant)) :
    servedParts seen p (a ++ b) = servedParts seen p a ++
      servedParts seen (serve seen p ((a.map Prod.fst).map .waiting)).2 b := by
  induction a generalizing p with
  | nil => rfl
  | cons entry a ih => exact congrArg (_ :: ·) (ih (entry.1.finish seen p).2)

/-- After both passes each of the started calls has the answer of its turn. -/
theorem startedParts_serve_left (seen p q : Plant) (served : List (Waiting × Call × Plant)) :
    (startedParts (served.map Prod.snd)
      (serve seen q (serveLeaves seen p ((served.map Prod.fst).map .waiting)).1).1).Perm
      ((servedParts seen p (served.filter fun entry => !entry.1.wantsRights) ++
        servedParts seen q (served.filter fun entry => entry.1.wantsRights)).map Prod.snd) := by
  induction served generalizing p q with
  | nil => exact .nil
  | cons entry rest ih =>
      rw [List.map_cons, List.map_cons, List.map_cons, serveLeaves, List.filter_cons,
        List.filter_cons]
      cases hw : entry.1.wantsRights with
      | true =>
          -- Its turn comes after those of all calls on leaves.
          have hrest := (ih p (entry.1.finish seen q).2).cons
            ⟨.started, entry.2.1, entry.2.2, (entry.1.finish seen q).1⟩
          rw [List.map_append] at hrest
          show List.Perm _ ((_ ++ _ :: _).map Prod.snd)
          rw [List.map_append, List.map_cons]
          exact hrest.trans List.perm_middle.symm
      | false => exact (ih (entry.1.finish seen p).2 q).cons _

/-- The started calls with their answers are the turns. -/
theorem startedParts_perm (seen p : Plant) (served : List (Waiting × Call × Plant)) :
    (startedParts (served.map Prod.snd)
      (serveAll seen p ((served.map Prod.fst).map .waiting)).1).Perm
      ((servedParts seen p (inTurn served)).map Prod.snd) := by
  have hsettled : (serveLeaves seen p ((served.map Prod.fst).map .waiting)).2 =
      (serve seen p (((served.filter fun entry => !entry.1.wantsRights).map
        Prod.fst).map .waiting)).2 := by
    rw [plant_serveLeaves, List.filter_map]
    rfl
  rw [inTurn, servedParts_append, ← hsettled]
  exact startedParts_serve_left seen p _ served

omit [KeyHash] in
/-- Every started call has its place at one of three times. -/
theorem perm_phases (served : List (Waiting × Part)) :
    (ofPhase .publishes served ++ (ofPhase .reads served ++ ofPhase .turns served)).Perm
      (served.map Prod.snd) := by
  induction served with
  | nil => exact .nil
  | cons entry rest ih =>
      obtain ⟨w, part⟩ := entry
      rw [ofPhase_cons, ofPhase_cons, ofPhase_cons]
      cases hw : w.phase with
      | publishes => exact ih.cons part
      | reads => exact (List.perm_middle).trans (ih.cons part)
      | turns =>
          rw [← List.append_assoc] at ih
          show (ofPhase .publishes rest ++ (ofPhase .reads rest ++
            part :: ofPhase .turns rest)).Perm _
          rw [← List.append_assoc]
          exact (List.perm_middle).trans (ih.cons part)

theorem ofPhase_servedParts_eq_nil {phase : Phase} {seen p : Plant}
    {served : List (Waiting × Call × Plant)} (h : ∀ entry ∈ served, entry.1.phase ≠ phase) :
    ofPhase phase (servedParts seen p served) = [] := by
  induction served generalizing p with
  | nil => rfl
  | cons entry rest ih =>
      rw [servedParts, ofPhase_cons, if_neg (h entry List.mem_cons_self)]
      exact ih fun later hlater => h later (List.mem_cons_of_mem _ hlater)

/-- The calls that go on in their turn. -/
theorem serial_turns (seen : Plant) {p : Plant} {served : List (Waiting × Call × Plant)}
    (hp : p.WellFormed) (hdue : ∀ entry ∈ served, Due entry.2.2 p entry.2.1 entry.1)
    (hordered : (served.map Prod.fst).Pairwise fun a b =>
      a.wantsRights = true → b.marksRoot = false) :
    Serial Part.Agrees p (ofPhase .turns (servedParts seen p served))
      (serve seen p ((served.map Prod.fst).map .waiting)).2 := by
  induction served generalizing p with
  | nil => exact .done
  | cons entry rest ih =>
      obtain ⟨w, call, met⟩ := entry
      rw [List.map_cons, List.pairwise_cons] at hordered
      have hw : Due met p call w := hdue _ List.mem_cons_self
      obtain ⟨hdefunct, hplaces⟩ := hw.finish_keeps seen hp
      have hrest : Serial Part.Agrees (w.finish seen p).2
          (ofPhase .turns (servedParts seen (w.finish seen p).2 rest))
          (serve seen (w.finish seen p).2 ((rest.map Prod.fst).map .waiting)).2 := by
        apply ih (wellFormed_finish_waiting seen hp w) _ hordered.2
        intro later hlater
        -- A removal keeps its place, since nobody before it wants the rights.
        refine (hdue later (List.mem_cons_of_mem _ hlater)).after hdefunct fun hmarks => ?_
        apply hplaces
        apply Bool.eq_false_iff.mpr
        intro hwants
        rw [hordered.1 later.1 (List.mem_map_of_mem hlater) hwants] at hmarks
        cases hmarks
      rw [servedParts, ofPhase_cons]
      by_cases hphase : w.phase = .turns
      · rw [if_pos hphase]
        exact serial_turn hw hphase hp hrest
      · rw [if_neg hphase]
        have hstill := finish_of_phase seen p hphase
        rw [hstill] at hrest ⊢
        rw [List.map_cons, List.map_cons]
        show Serial Part.Agrees p _
          (serve seen (w.finish seen p).2 ((rest.map Prod.fst).map .waiting)).2
        rw [hstill]
        exact hrest

/-- The reads that waited for updates, on the plant that they have seen. -/
theorem serial_reads {seen : Plant} (p q : Plant) {served : List (Waiting × Call × Plant)}
    (hserves : ∀ entry ∈ served, entry.1.Serves entry.2.2 q entry.2.1) :
    Serial Part.Agrees seen (ofPhase .reads (servedParts seen p served)) seen := by
  induction served generalizing p with
  | nil => exact .done
  | cons entry rest ih =>
      obtain ⟨w, call, met⟩ := entry
      have hrest := ih (w.finish seen p).2 fun later hlater =>
        hserves later (List.mem_cons_of_mem _ hlater)
      have hw : w.Serves met q call := hserves _ List.mem_cons_self
      rw [servedParts, ofPhase_cons]
      -- All reads have seen the same plant, whatever the others do at their turns.
      by_cases hphase : w.phase = .reads
      · rw [if_pos hphase]
        cases hw with
        | reading hread hcall => exact .still (.exact rfl) (hread seen) hrest
        | exporting hnames => exact .still (.exported hnames) rfl hrest
        | viewing hnames => exact .still (.viewed hnames) rfl hrest
        | _ => cases hphase
      · rw [if_neg hphase]
        exact hrest

/-- The updates that have passed every check. -/
theorem serial_publishes {o : Overlap} (hp : o.plant.WellFormed) (seen p : Plant)
    {served : List (Waiting × Call × Plant)} (hmem : ∀ entry ∈ served, entry.1 ∈ o.waiting)
    (hreader : ∀ entry ∈ served, entry.1.wantsRights = true ∨ o.stopped.isReader = true)
    (hserves : ∀ entry ∈ served, entry.1.Serves entry.2.2 o.plant entry.2.1) :
    Serial Part.Agrees o.plant (ofPhase .publishes (servedParts seen p served))
      ((served.map Prod.fst).foldl Waiting.publish o.plant) := by
  induction served generalizing o p with
  | nil => exact .done
  | cons entry rest ih =>
      obtain ⟨w, call, met⟩ := entry
      have hw : w.Serves met o.plant call := hserves _ List.mem_cons_self
      obtain ⟨hmove, hafter⟩ := moves_publish hp hw
      have hmem' : ∀ later ∈ rest, later.1 ∈ o.waiting := fun later hlater =>
        hmem later (List.mem_cons_of_mem _ hlater)
      have hreader' : ∀ later ∈ rest, later.1.wantsRights = true ∨ o.stopped.isReader = true :=
        fun later hlater => hreader later (List.mem_cons_of_mem _ hlater)
      have hrest := ih (o := { o with plant := w.publish o.plant }) hafter (w.finish seen p).2
        hmem' hreader' fun later hlater => hmove.serves hp.toSearchable (hmem' later hlater)
          (hreader' later hlater) (hserves later (List.mem_cons_of_mem _ hlater))
      rw [servedParts, ofPhase_cons]
      cases hw with
      | @publishing key seed values leaf elements hfind hr =>
          -- What it has checked still holds, so the whole write would put the same elements there.
          have hd := hp.isDefunct_of_find? hfind
          rw [← hp.place?_beq_root hd] at hr
          obtain ⟨ha, hplant⟩ := Plant.set_of_find?_some hd hfind seed values
          rw [Plant.updateNow_of_renewal hfind hr] at ha hplant
          have hpublish : Waiting.publish o.plant (.publishing (leafName key) elements) =
              o.plant.publish key elements := hp.modify_leafName key _
          rw [hpublish] at hrest
          refine .next (.exact (congrArg Answer.unit ha).symm) ?_
          show Serial Part.Agrees (o.plant.set key seed values).plant _ _
          rw [hplant, List.map_cons, List.foldl_cons, hpublish]
          exact hrest
      | _ => exact hrest

end Overlap
end PlantStore
