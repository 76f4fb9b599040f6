import Mathlib.Data.List.Chain
import PlantStore.Proofs.Delete.Located
import PlantStore.Proofs.Found
import PlantStore.Proofs.Protection.Protected

/-! # Removals in a queue

A removal that is started while another call is stopped waits for its turn. If nobody had the
rights it has taken them, and stands on its leaf; otherwise it has let go of the leaf and looks for
the key again when it is served. Either way its turn is a removal of its own: it finds the same
leaf, behind the same place, as if it had been called then, and if a call before it in the queue has
taken the leaf out it is told that there is none. No call of the queue can have put in another leaf
of the name, since it would have had to find the name absent while the removal found it there.

The queue is in the order of the turns: calls on leaves come before the removals, and so does a
change of flags that protects a leaf from a removal that was started earlier. -/

namespace PlantStore

section

variable [KeyHash]

/-! ### What a removal aims at -/

/-- A removal that waits is a removal of its key, and the leaf of the key is there. -/
def Waiting.Aims (p : Plant) (call : Call) (w : Waiting) : Prop :=
  ∀ key, call = .delete key →
    ((∃ index, w = .removing key index) ∨ w = .deleting key) ∧
      ∃ index, p.place? key = some (.link index)

theorem Waiting.Aims.wantsRights {p : Plant} {key : String} {w : Waiting}
    (h : w.Aims p (.delete key)) : w.wantsRights = true := by
  rcases (h key rfl).1 with ⟨index, rfl⟩ | rfl
  · rfl
  · rfl

namespace Overlap

theorem aims_of_wait? {o : Overlap} {call : Call} {w : Waiting} (hw : o.wait? call = some w) :
    w.Aims o.plant call := by
  rintro key rfl
  obtain ⟨index, hplace, hwaits⟩ := waitDelete?_eq_some hw
  refine ⟨?_, index, hplace⟩
  rcases hwaits with ⟨-, rfl⟩ | ⟨-, rfl⟩
  · exact .inr rfl
  · exact .inl ⟨index, rfl⟩

/-- All started removals aim at leaves that are there. -/
def Aimed (o : Overlap) (asked : List (Call × Plant)) : Prop :=
  List.Forall₂ (fun w ask => w.Aims o.plant.unmark ask.1) o.waiting asked

section

variable {start : Plant} {hold : Call} {asked : List (Call × Plant)} {o : Overlap}
  (h : o.Sound start hold asked)

include h

/-- While a removal waits, the rights are taken, so no call that is made at once takes its leaf
away. -/
theorem Sound.aimed_now (haimed : o.Aimed asked) {call : Call} (hfree : o.wait? call = none) :
    (o.step (.now call)).1.Aimed asked := by
  have hmove : o.unmark.Moves (o.answerNow call).plant.unmark := by
    rw [← plant_answerNow_unmark]
    exact moves_answerNow h.wellFormed ((o.wait?_unmark call).trans hfree)
  have hmem := (List.forall₂_and_left _ _).mpr ⟨fun w (hw : w ∈ o.waiting) => hw, haimed⟩
  refine hmem.imp fun w ask haims => ?_
  obtain ⟨hw, haims⟩ := haims
  obtain ⟨asked, met⟩ := ask
  rintro key rfl
  have htaken : o.rightsTaken = true := by
    rw [rightsTaken, Bool.or_eq_true]
    exact .inr (List.any_eq_true.mpr ⟨w, hw, haims.wantsRights⟩)
  obtain ⟨hform, index, hplace⟩ := haims key rfl
  exact ⟨hform, index, (hmove.place?_eq h.wellFormed.toSearchable htaken key).1.trans hplace⟩

omit h in
theorem aimed_start (haimed : o.Aimed asked) {call : Call} {w : Waiting}
    (hw : o.wait? call = some w) :
    (o.step (.start call)).1.Aimed (asked ++ [(call, o.plant)]) := by
  show List.Forall₂ (fun w ask => w.Aims (o.start call).plant.unmark ask.1)
    (o.start call).waiting (asked ++ [(call, o.plant)])
  rw [waiting_start hw, plant_start_unmark hw]
  refine List.rel_append haimed (.cons (fun key hcall => ?_) .nil)
  rw [Plant.place?_unmark]
  exact aims_of_wait? hw key hcall

theorem Sound.aimed_steps (haimed : o.Aimed asked) {script : List Step}
    (hfeasible : o.isFeasible script = true) :
    (o.steps script).1.Aimed (asked ++ o.asked script) := by
  replace hfeasible := feasible_of_isFeasible hfeasible
  induction hfeasible generalizing asked with
  | nil =>
      rw [Overlap.asked, List.append_nil]
      exact haimed
  | now hfree hrest ih => exact ih (h.now hfree) (h.aimed_now haimed hfree)
  | start hw hrest ih =>
      rw [Overlap.asked, List.append_cons]
      exact ih (h.started hw) (aimed_start haimed hw)

end

/-! ### The queue -/

/-- A call of the queue at its turn: the plant that it finds, what it answers, and the plant that
it leaves. -/
structure Serving where
  waiting : Waiting
  call : Call
  before : Plant
  answer : Answer
  after : Plant

/-- The turns of waiting calls, one after the other. -/
def queueFrom (seen : Plant) : Plant → List (Waiting × Call × Plant) → List Serving
  | _, [] => []
  | p, (w, call, _) :: rest =>
    ⟨w, call, p, (w.finish seen p).1, (w.finish seen p).2⟩ ::
      queueFrom seen (w.finish seen p).2 rest

/-- The plant that the started calls of an overlap find when they are served. The mark of a waiting
removal plays no part in it. -/
def published (p : Plant) (hold : Call) (script : List Step) : Plant :=
  let o := ((begun p hold).steps script).1
  o.waiting.foldl Waiting.publish (o.stopped.finish o.plant.unmark).2

/-- How the started calls of an overlap wait, in the order of starting. -/
def waited (p : Plant) (hold : Call) (script : List Step) : List Waiting :=
  ((begun p hold).steps script).1.waiting

/-- The turns of the started calls of an overlap. -/
def queue (p : Plant) (hold : Call) (script : List Step) : List Serving :=
  let seen := published p hold script
  queueFrom seen seen (inTurn ((waited p hold script).zip ((begun p hold).asked script)))

/-- The calls that a script starts. -/
def startedCalls (script : List Step) : List Call :=
  script.filterMap fun
    | .start call => some call
    | .now _ => none

theorem asked_calls (o : Overlap) (script : List Step) :
    (o.asked script).map Prod.fst = startedCalls script := by
  induction script generalizing o with
  | nil => rfl
  | cons s rest ih =>
      cases s with
      | now call => exact ih _
      | start call => exact congrArg (call :: ·) (ih _)

section

variable (seen p : Plant) (entries : List (Waiting × Call × Plant))

theorem queueFrom_waiting :
    (queueFrom seen p entries).map Serving.waiting = entries.map Prod.fst := by
  induction entries generalizing p with
  | nil => rfl
  | cons entry rest ih => exact congrArg (entry.1 :: ·) (ih _)

theorem queueFrom_calls :
    (queueFrom seen p entries).map Serving.call = entries.map fun entry => entry.2.1 := by
  induction entries generalizing p with
  | nil => rfl
  | cons entry rest ih => exact congrArg (entry.2.1 :: ·) (ih _)

theorem queueFrom_answers :
    (queueFrom seen p entries).map Serving.answer =
      (serve seen p ((entries.map Prod.fst).map .waiting)).1 := by
  induction entries generalizing p with
  | nil => rfl
  | cons entry rest ih => exact congrArg ((entry.1.finish seen p).1 :: ·) (ih _)

/-- Each call finds the plant that the one before it leaves. -/
theorem queueFrom_linked :
    (queueFrom seen p entries).IsChain (fun earlier later => later.before = earlier.after) ∧
      (∀ first ∈ (queueFrom seen p entries).head?, first.before = p) ∧
      ((queueFrom seen p entries).getLast?.elim p Serving.after =
        (serve seen p ((entries.map Prod.fst).map .waiting)).2) := by
  induction entries generalizing p with
  | nil => exact ⟨.nil, fun _ hfirst => (by cases hfirst), rfl⟩
  | cons entry rest ih =>
      obtain ⟨hchain, hfirst, hlast⟩ := ih (entry.1.finish seen p).2
      refine ⟨List.isChain_cons.mpr ⟨hfirst, hchain⟩, ?_, ?_⟩
      · rintro first ⟨⟩
        rfl
      · rw [queueFrom, List.getLast?_cons]
        refine Eq.trans ?_ hlast
        cases (queueFrom seen (entry.1.finish seen p).2 rest).getLast? <;> rfl

end

/-- The turns are those of the overlap that ends with the report: its started calls with their
answers, those on leaves first, from the plant that the stopped call leaves on, each on the plant
of the one before, and none held up by one that comes later. -/
structure Reports (p : Plant) (hold : Call) (script : List Step) (turns : List Serving) : Prop where
  waiting : turns.map Serving.waiting = Waiting.turns (waited p hold script)
  calls : turns.map Serving.call =
    (inTurn ((waited p hold script).zip (startedCalls script))).map Prod.snd
  answers : turns.map Serving.answer =
    (inTurn ((waited p hold script).zip (run p hold script).started)).map Prod.snd
  free : turns.Pairwise fun first later => later.waiting.holdsUp first.waiting = false
  linked : turns.IsChain fun earlier later => later.before = earlier.after
  first : ∀ s ∈ turns.head?, s.before = published p hold script
  last : turns.getLast?.elim (published p hold script) Serving.after = (run p hold script).plant

theorem reports_queue {p : Plant} (hp : p.WellFormed) {hold : Call} {script : List Step}
    (h : Admissible p hold script) : Reports p hold script (queue p hold script) := by
  have hsound := (begun_sound hp h.1).steps h.2
  rw [List.nil_append] at hsound
  let asked := (begun p hold).asked script
  let seen := published p hold script
  have hfst : (inTurn ((waited p hold script).zip asked)).map Prod.fst =
      Waiting.turns (waited p hold script) := hsound.turns_served.1
  obtain ⟨hlinked, hfirst, hlast⟩ := queueFrom_linked seen seen
    (inTurn ((waited p hold script).zip asked))
  have hwaiting : (queue p hold script).map Serving.waiting =
      Waiting.turns (waited p hold script) := (queueFrom_waiting _ _ _).trans hfst
  refine ⟨hwaiting, ?_, ?_, ?_, hlinked, hfirst, ?_⟩
  · rw [queue, queueFrom_calls, ← asked_calls (begun p hold) script]
    have hzip : (waited p hold script).zip (asked.map Prod.fst) =
        ((waited p hold script).zip asked).map (Prod.map id Prod.fst) := List.zip_map_right
    rw [hzip, inTurn_map, List.map_map]
    rfl
  · have hstarted : (run p hold script).started =
        (serveAll seen seen ((waited p hold script).map .waiting)).1 :=
      congrArg Report.started (hsound.finish_eq ((begun p hold).steps script).2)
    rw [hstarted, answers_serveAll, queue, queueFrom_answers, hfst]
  · have hfree : (Waiting.turns (waited p hold script)).Pairwise
        fun first later => later.holdsUp first = false := hsound.turns_not_held_up
    rw [← hwaiting] at hfree
    exact List.pairwise_map.mp hfree
  · rw [hfst] at hlast
    exact hlast.trans (hsound.plant_finish ((begun p hold).steps script).2).symm

/-! ### Turns of removals -/

end Overlap

/-- The walk of a waiting removal at its turn: to its place if it has stood there, and to its key if
it has waited for the rights. -/
def Waiting.target? (p : Plant) : Waiting → Option (Place × Nat)
  | removing _ index => p.locateAt index
  | deleting key => p.locate key
  | _ => none

namespace Overlap

/-- A turn is a removal: its walk stops where a walk to the key stops, it goes on from there, and so
it takes exactly its leaf out. -/
structure Serving.Removes (s : Serving) (key : String) : Prop where
  located : s.waiting.target? s.before = s.before.locate key
  answer_eq : s.answer = .unit (s.before.removeFound key (s.waiting.target? s.before)).answer
  after_eq : s.after = (s.before.removeFound key (s.waiting.target? s.before)).plant
  deletes : s.before.Deletes key (s.before.removeFound key (s.waiting.target? s.before)).answer
    s.after

/-- What waiting calls that are to be served one after the other rely on. -/
structure Ready (p : Plant) (entries : List (Waiting × Call × Plant)) : Prop where
  wellFormed : p.WellFormed
  removals : ∀ entry ∈ entries, ∀ key, entry.2.1 = .delete key →
    (∃ index, entry.1 = .removing key index) ∨ entry.1 = .deleting key
  stands : ∀ entry ∈ entries, entry.1.Stands p
  ordered : (entries.map Prod.fst).Pairwise fun a b => a.wantsRights = true → b.marksRoot = false
  /-- No write makes a leaf for the key of a removal. -/
  apart : ∀ entry ∈ entries, ∀ other seed values, entry.1 = .inserting other seed values →
    ∀ removal ∈ entries, ∀ key, removal.2.1 = .delete key → leafName other ≠ leafName key

/-- When the first call has been served, the others still have what they rely on. -/
theorem Ready.tail {p : Plant} {entry : Waiting × Call × Plant}
    {rest : List (Waiting × Call × Plant)} (h : Ready p (entry :: rest)) (seen : Plant) :
    Ready (entry.1.finish seen p).2 rest := by
  have hordered := h.ordered
  rw [List.map_cons, List.pairwise_cons] at hordered
  refine ⟨wellFormed_finish_waiting seen h.wellFormed entry.1,
    fun later hlater => h.removals later (List.mem_cons_of_mem _ hlater), ?_, hordered.2,
    fun later hlater other seed values hinserting removal hremoval =>
      h.apart later (List.mem_cons_of_mem _ hlater) other seed values hinserting removal
        (List.mem_cons_of_mem _ hremoval)⟩
  intro later hlater
  refine (h.stands later (List.mem_cons_of_mem _ hlater)).after fun hmarks key => ?_
  -- A removal keeps its place, since nobody before it wants the rights.
  apply place?_finish_waiting seen h.wellFormed.toSearchable
  apply Bool.eq_false_iff.mpr
  intro hwants
  rw [hordered.1 later.1 (List.mem_map_of_mem hlater) hwants] at hmarks
  cases hmarks

/-- A removal that has its turn removes. -/
theorem removes_at_turn (seen : Plant) {p : Plant} (hp : p.WellFormed) {w : Waiting} {key : String}
    (hform : (∃ index, w = .removing key index) ∨ w = .deleting key) (hstands : w.Stands p) :
    Serving.Removes ⟨w, .delete key, p, (w.finish seen p).1, (w.finish seen p).2⟩ key := by
  have hunmark : p.unmark = p := p.unmark_of_not hp.root_unmarked
  -- Both forms walk to the same leaf and go on in the same way.
  have hturn : w.target? p = p.locate key ∧
      w.finish seen p = (.unit (p.delete key).answer, (p.delete key).plant) := by
    rcases hform with ⟨index, rfl⟩ | rfl
    · have hplace := hstands key index rfl
      obtain ⟨hat, hkey⟩ := hp.locate_of_place? hplace
      refine ⟨hat.trans hkey.symm, ?_⟩
      show (Answer.unit (p.reportDeleted key (p.unmark.removeAt index)).answer,
        (p.reportDeleted key (p.unmark.removeAt index)).plant) = _
      rw [hunmark, Plant.delete_of_link hplace]
    · refine ⟨rfl, ?_⟩
      show (Answer.unit (p.deleteAfterWait key).answer, (p.deleteAfterWait key).plant) = _
      rw [hp.deleteAfterWait_eq]
  obtain ⟨htarget, hfinish⟩ := hturn
  have hremoval : p.removeFound key (w.target? p) = p.delete key := by
    rw [htarget, ← Plant.deleteAfterWait_eq_removeFound, hp.deleteAfterWait_eq]
  refine ⟨htarget, ?_, ?_, ?_⟩
  · rw [hremoval, hfinish]
  · rw [hremoval, hfinish]
  · rw [hremoval, hfinish]
    exact hp.deletes key

theorem Ready.removes {p : Plant} {entries : List (Waiting × Call × Plant)} (h : Ready p entries)
    (seen : Plant) :
    ∀ s ∈ queueFrom seen p entries, ∀ key, s.call = .delete key → s.Removes key := by
  induction entries generalizing p with
  | nil =>
      intro s hs
      cases hs
  | cons entry rest ih =>
      intro s hs
      rcases List.mem_cons.mp hs with rfl | hrest
      · obtain ⟨w, call, met⟩ := entry
        rintro key rfl
        exact removes_at_turn seen h.wellFormed (h.removals _ List.mem_cons_self key rfl)
          (h.stands _ List.mem_cons_self)
      · exact ih (h.tail seen) s hrest

/-- What is absent when a removal of it waits stays absent until the removal has its turn. -/
theorem Ready.absent {p : Plant} {entries : List (Waiting × Call × Plant)} (h : Ready p entries)
    (seen : Plant) {key : String} (hnone : p.find? key = none)
    (hentries : ∀ entry ∈ entries, ∀ other seed values, entry.1 = .inserting other seed values →
      leafName other ≠ leafName key) :
    ∀ s ∈ queueFrom seen p entries, s.before.find? key = none := by
  induction entries generalizing p with
  | nil =>
      intro s hs
      cases hs
  | cons entry rest ih =>
      intro s hs
      rcases List.mem_cons.mp hs with rfl | hrest
      · exact hnone
      · exact ih (h.tail seen)
          (Waiting.absent_finish seen h.wellFormed hnone (hentries entry List.mem_cons_self))
          (fun later hlater => hentries later (List.mem_cons_of_mem _ hlater)) s hrest

/-- A removal is told that there is no leaf if the leaf has gone at an earlier turn. -/
theorem Ready.pairwise {p : Plant} {entries : List (Waiting × Call × Plant)} (h : Ready p entries)
    (seen : Plant) :
    (queueFrom seen p entries).Pairwise fun earlier later => ∀ key, later.call = .delete key →
      earlier.after.has key = false → later.answer = .unit (.error .noSuchLeaf) := by
  induction entries generalizing p with
  | nil => exact .nil
  | cons entry rest ih =>
      have htail := h.tail seen
      refine List.pairwise_cons.mpr ⟨?_, ih htail⟩
      intro later hlater key hcall hgone
      -- The call is among those that wait, so no write that waits makes a leaf of its key.
      have hasked :
          .delete key ∈ (queueFrom seen (entry.1.finish seen p).2 rest).map Serving.call :=
        List.mem_map.mpr ⟨later, hlater, hcall⟩
      rw [queueFrom_calls] at hasked
      obtain ⟨removal, hremoval, hdelete⟩ := List.mem_map.mp hasked
      have hbefore : later.before.find? key = none := by
        refine htail.absent seen (Plant.has_eq_false_iff.mp hgone) ?_ later hlater
        intro writing hwriting other seed values hinserting
        exact htail.apart writing hwriting other seed values hinserting removal hremoval key hdelete
      have hremoves := htail.removes seen later hlater key hcall
      rw [hremoves.answer_eq, hremoves.deletes.judged, Plant.deleteRules,
        Plant.has_eq_false_iff.mpr hbefore]
      cases later.before.isDefunct <;> rfl

/-- The started calls are ready to be served when the stopped call has left. -/
theorem Sound.ready {start : Plant} {hold : Call} {asked : List (Call × Plant)} {o : Overlap}
    (h : o.Sound start hold asked) (haimed : o.Aimed asked) :
    Ready (o.waiting.foldl Waiting.publish (o.stopped.finish o.plant.unmark).2)
      (inTurn (o.waiting.zip asked)) := by
  obtain ⟨hfst, hserved⟩ := h.turns_served
  have haims : ∀ entry ∈ inTurn (o.waiting.zip asked), entry.1.Aims o.plant.unmark entry.2.1 :=
    fun entry hentry => List.forall₂_zip haimed ((mem_inTurn _).mp hentry)
  refine ⟨h.wellFormed_published, fun entry hentry key hcall => (haims entry hentry key hcall).1,
    fun entry hentry => h.stands_published entry.1 (hserved entry hentry).1, ?_, ?_⟩
  · rw [hfst]
    exact h.turns_ordered
  · intro writing hwriting other seed values hinserting removal hremoval key hcall hname
    -- The write has found no leaf where the removal has found one.
    have habsent : o.plant.unmark.find? other = none := by
      have hserve := (hserved writing hwriting).2.2
      rw [hinserting] at hserve
      generalize writing.2.1 = call at hserve
      cases hserve with
      | inserting hfind => exact hfind
    obtain ⟨-, index, hplace⟩ := haims removal hremoval key hcall
    obtain ⟨hd, leaf, hleaf, hself⟩ := h.wellFormed.place?_eq_link_iff.mp hplace
    have hmem : leaf ∈ o.plant.unmark.leaves :=
      List.mem_cons_of_mem _ (List.mem_of_getElem? hleaf)
    exact h.wellFormed.ne_of_find?_none hd habsent leaf hmem (hself.trans hname.symm)

end Overlap

/-! ### The theorem -/

namespace Plant

/-- A removal from a reachable plant takes exactly its leaf out or is refused for the first rule
that it breaks. It does so by either way of finding the leaf: where the leaf was found before and
where its key is found again are one place in the chain, behind one other place. In an overlap each
removal that waits is such a removal from the plant that it finds at its turn, behind the calls on
leaves, and it is told that there is no leaf once an earlier turn has left none. -/
theorem delete_is_exact {p : Plant} (h : p.Reachable) :
    (∀ key, p.Deletes key (p.delete key).answer (p.delete key).plant) ∧
    (∀ key retained, p.delete key = p.deleteByWalk retained key) ∧
    (∀ key, p.deleteAfterWait key = p.removeFound key (p.locate key) ∧
      p.deleteAfterWait key = p.delete key) ∧
    (∀ index target, p.chain[index]? = some target →
      p.locateAt index = some (.before index, index) ∧
      p.locate target.name = some (.before index, index)) ∧
    ∀ hold script, Overlap.Admissible p hold script →
      Overlap.Reports p hold script (Overlap.queue p hold script) ∧
      (∀ s ∈ Overlap.queue p hold script, ∀ key, s.call = .delete key → s.Removes key) ∧
      (Overlap.queue p hold script).Pairwise fun earlier later =>
        ∀ key, later.call = .delete key → earlier.after.has key = false →
          later.answer = .unit (.error .noSuchLeaf) := by
  have hp := h.wellFormed
  refine ⟨hp.deletes, fun key retained => hp.delete_eq_deleteByWalk retained key,
    fun key => ⟨p.deleteAfterWait_eq_removeFound key, hp.deleteAfterWait_eq key⟩,
    fun index target hleaf => ⟨locateAt_eq_some hleaf, hp.locate_eq_some hleaf⟩, ?_⟩
  intro hold script hadm
  have hbegun := Overlap.begun_sound hp hadm.1
  have hready := (hbegun.steps hadm.2).ready (hbegun.aimed_steps .nil hadm.2)
  exact ⟨Overlap.reports_queue hp hadm, hready.removes _, hready.pairwise _⟩

end Plant

end

/-- While a leaf is written, two removals of the leaf behind it and one of the leaf itself wait, and
then a change of flags that protects this leaf. -/
theorem Plant.delete_is_exact_of_queued :
    let p := ((Plant.make 7 false).run
      [.set "a" .int [.int 1], .set "b" .int [.int 2], .set "c" .int [.int 3],
        .setFlags "b" .immutable]).1
    let script : List Step := [.start (.delete "b"), .start (.delete "b"), .start (.delete "c"),
      .start (.setFlags "c" .undeletable)]
    let turns := Overlap.queue p (.set "c" .int [.int 4]) script
    p.Reachable ∧ Overlap.Admissible p (.set "c" .int [.int 4]) script ∧
      (∃ target, p.chain[1]? = some target ∧ target.name = "b" ∧
        p.locateAt 1 = some (.link 0, 1) ∧ p.locate target.name = some (.link 0, 1)) ∧
      (∃ front target back, p.chain = front ++ target :: back ∧ target.name = "b" ∧
        (p.delete "b").plant = { p with chain := front ++ back }) ∧
      turns.map Overlap.Serving.call =
        [.setFlags "c" .undeletable, .delete "b", .delete "b", .delete "c"] ∧
      turns.map Overlap.Serving.answer = [.unit (.ok ()), .unit (.ok ()),
        .unit (.error .noSuchLeaf), .unit (.error .undeletable)] := by
  intro p script turns
  have hp : p.Reachable := .call (.call (.call (.call (.make 7 false) _) _) _) _
  have hadm : Overlap.Admissible p (.set "c" .int [.int 4]) script := by decide
  obtain ⟨hdeletes, -, -, hfound, hqueue⟩ := delete_is_exact hp
  obtain ⟨hreports, -, -⟩ := hqueue (.set "c" .int [.int 4]) script hadm
  have hmiddle : p.chain[1]? = some (p.chain.get ⟨1, by decide⟩) := rfl
  exact ⟨hp, hadm, ⟨_, hmiddle, by decide, hfound 1 _ hmiddle⟩,
    (hdeletes "b").removed (by decide), hreports.calls.trans (by decide),
    hreports.answers.trans (by decide)⟩

end PlantStore
