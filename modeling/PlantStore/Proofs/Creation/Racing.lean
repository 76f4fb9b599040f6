import PlantStore.Proofs.Creation.Served
import PlantStore.Proofs.Delete.Queue
import PlantStore.Proofs.Free.Overlap

/-! # Overlapping creations of one key

A write of an absent key is stopped after it has taken the rights and before it has linked the
leaf, and writes of the same key are started meanwhile. Each of them has found the key absent and
waits for the rights. At its turn it searches again, finds the leaf that the stopped call has
linked by then, and is an update of it. So one leaf is made, whoever comes later, and it keeps the
seed of the call that made it. -/

namespace PlantStore

section

variable [KeyHash]

/-- Whether a call neither makes a leaf nor removes one. -/
def Call.sparesChain (p : Plant) : Call → Bool
  | set key seed _ => p.has key || !seed.isValid
  | delete _ | free => false
  | _ => true

namespace Overlap

/-! ### While the writes wait -/

/-- The stopped call makes a leaf for a key, and all that wait are writes that want to make it too.
The other keys have a leaf exactly if they had one in the beginning. -/
structure Creating (p : Plant) (key : String) (o : Overlap) : Prop where
  stopped_eq : ∃ seed values, o.stopped = .inserting key seed values
  waiting_eq : ∀ w ∈ o.waiting, ∃ seed values, w = .inserting key seed values
  live : o.plant.unmark.isDefunct = false
  has_eq : ∀ other, o.plant.unmark.has other = p.has other
  absent : p.has key = false

section

variable {p : Plant} {key : String} {o : Overlap} (h : o.Creating p key)

include h

theorem Creating.rightsTaken : o.rightsTaken = true := by
  obtain ⟨seed, values, hstopped⟩ := h.stopped_eq
  rw [Overlap.rightsTaken, hstopped]
  rfl

/-- Nobody holds the writer mutex of a leaf, nor the value lock of one, nor waits for it. -/
theorem Creating.unlocked (name : String) :
    o.valueAwaited name = false ∧ o.writerTaken name = false ∧
      o.stopped.readsValue name = false ∧ o.stopped.isReader = false := by
  obtain ⟨seed, values, hstopped⟩ := h.stopped_eq
  have hawaited : o.valueAwaited name = false := by
    refine List.any_eq_false.mpr fun w hw => ?_
    obtain ⟨seed', values', rfl⟩ := h.waiting_eq w hw
    exact Bool.false_ne_true
  refine ⟨hawaited, ?_, ?_, ?_⟩
  · rw [writerTaken, hawaited, hstopped]
    rfl
  · rw [hstopped]
    rfl
  · rw [hstopped]
    rfl

/-- No call has to wait that neither makes a leaf nor removes one. -/
theorem Creating.wait?_of_sparesChain {call : Call} (hcall : call.sparesChain p = true) :
    o.wait? call = none := by
  have hof (other : String) : o.ofLeaf other o.valueAwaited = false := by
    rw [ofLeaf]
    split
    · exact (h.unlocked _).1
    · rfl
  have hall : (!o.plant.isDefunct &&
      (o.plant.root :: o.plant.chain).any fun leaf => o.valueAwaited leaf.name) = false := by
    rw [Bool.and_eq_false_iff]
    refine .inr (List.any_eq_false.mpr fun leaf _ => ?_)
    rw [(h.unlocked leaf.name).1]
    exact Bool.false_ne_true
  have hread {call : Call} (hnot : o.readsAwaited call = false) :
      (if o.readsAwaited call then some (o.waitingRead call) else none) = none := by
    rw [hnot]
    rfl
  -- The stopped call has the rights and nothing else, so a call can only wait for the rights.
  cases call with
  | set other seed values =>
      show o.waitSet? other seed values = none
      rw [waitSet?]
      cases hfind : o.plant.find? other with
      | some leaf =>
          dsimp only
          split
          · rfl
          · rw [(h.unlocked leaf.name).2.1, if_neg Bool.false_ne_true]
            split
            · rw [(h.unlocked leaf.name).2.2.1]
              rfl
            · rfl
      | none =>
          have hhas : p.has other = false := by
            rw [← h.has_eq, Plant.has_unmark]
            exact Plant.has_eq_false_iff.mpr hfind
          rw [Call.sparesChain, hhas, Bool.false_or, Bool.not_eq_true'] at hcall
          rw [hcall, Bool.and_false, Bool.false_and]
          rfl
  | setFlags other flags =>
      show o.waitFlags? other flags = none
      rw [waitFlags?]
      split
      next leaf _ =>
        rw [(h.unlocked leaf.name).2.1]
        rfl
      · rfl
  | delete => cases hcall
  | free => cases hcall
  | views => exact hread hall
  | exported order => exact hread hall
  | get => exact hread (hof _)
  | getAs => exact hread (hof _)
  | getAll => exact hread (hof _)
  | probe => exact hread (hof _)
  | numElements => exact hread (hof _)
  | elementSize => exact hread (hof _)
  | type => exact hread (hof _)
  | _ => rfl

/-- A write of the key has to wait for the rights. -/
theorem Creating.wait?_set {seed : Seed} (hseed : seed.isValid = true) (values : List Value) :
    o.wait? (.set key seed values) = some (.inserting key seed values) := by
  have hfind : o.plant.find? key = none := by
    rw [← Plant.has_eq_false_iff, ← Plant.has_unmark, h.has_eq]
    exact h.absent
  have hlive : o.plant.isDefunct = false := o.plant.isDefunct_unmark ▸ h.live
  show o.waitSet? key seed values = _
  rw [waitSet?, hfind, hlive, hseed, h.rightsTaken]
  rfl

variable {start : Plant} {hold : Call} {asked : List (Call × Plant)}
  (hsound : o.Sound start hold asked)

include hsound

/-- A call that is made at once keeps the state of affairs. -/
theorem Creating.now {call : Call} (hfree : o.wait? call = none) :
    (o.step (.now call)).1.Creating p key := by
  have hmove : o.unmark.Moves (o.answerNow call).plant.unmark := by
    rw [← plant_answerNow_unmark]
    exact moves_answerNow hsound.wellFormed ((o.wait?_unmark call).trans hfree)
  obtain ⟨hnames, hd⟩ := hmove.names_eq h.rightsTaken
  have hnext := (hsound.now hfree).wellFormed
  refine ⟨h.stopped_eq, h.waiting_eq, hd.trans h.live, fun other => ?_, h.absent⟩
  rw [← h.has_eq]
  exact hsound.wellFormed.has_congr hnext.toSearchable hnames hd other

omit hsound in
/-- So does a write of the key that is started. -/
theorem Creating.started {seed : Seed} (hseed : seed.isValid = true) (values : List Value) :
    (o.step (.start (.set key seed values))).1.Creating p key := by
  have hw := h.wait?_set hseed values
  have hplant : (o.start (.set key seed values)).plant.unmark = o.plant.unmark :=
    plant_start_unmark hw
  have hstopped : (o.start (.set key seed values)).stopped = o.stopped := by
    rw [Overlap.start, hw]
  refine ⟨hstopped ▸ h.stopped_eq, ?_, ?_, ?_, h.absent⟩
  · exact forall_waiting_start hw h.waiting_eq ⟨seed, values, rfl⟩
  · exact (congrArg Plant.isDefunct hplant).trans h.live
  · intro other
    exact (congrArg (·.has other) hplant).trans (h.has_eq other)

/-- A script suits the overlap if it starts writes of the key under seeds that a leaf can have, and
no other call makes a leaf or removes one. -/
theorem Creating.isFeasible {script : List Step}
    (hstarted : ∀ call ∈ startedCalls script, ∃ seed values,
      call = .set key seed values ∧ seed.isValid = true)
    (hscript : ∀ call, .now call ∈ script → call.sparesChain p = true) :
    o.isFeasible script = true := by
  induction script generalizing o asked with
  | nil => rfl
  | cons s rest ih =>
      rw [Overlap.isFeasible, Bool.and_eq_true]
      have hscript' : ∀ call, .now call ∈ rest → call.sparesChain p = true :=
        fun call hcall => hscript call (List.mem_cons_of_mem _ hcall)
      cases s with
      | now call =>
          have hfree := h.wait?_of_sparesChain (hscript call List.mem_cons_self)
          exact ⟨Option.isNone_iff_eq_none.mpr hfree,
            ih (h.now hsound hfree) (hsound.now hfree) hstarted hscript'⟩
      | start call =>
          obtain ⟨seed, values, rfl, hseed⟩ := hstarted call List.mem_cons_self
          have hw := h.wait?_set hseed values
          exact ⟨Option.isSome_iff_exists.mpr ⟨_, hw⟩,
            ih (h.started hseed values) (hsound.started hw)
              (fun call hcall => hstarted call (List.mem_cons_of_mem _ hcall)) hscript'⟩

end

/-! ### Ordinary calls -/

/-- No lock is in the way of a call about a key without a leaf. -/
theorem answerNow_of_absent {o : Overlap} {key : String} (hnone : o.plant.find? key = none)
    {call : Call} (hkey : call.key? = some key) : o.answerNow call = o.plant.perform call := by
  have hof (property : String → Bool) : o.ofLeaf key property = false := by
    rw [ofLeaf, hnone]
  cases call with
  | setHostWord =>
      cases hkey
      rw [answerNow, hof]
      rfl
  | hostWordOf =>
      cases hkey
      rw [answerNow, hof]
      rfl
  | _ => rfl

/-! ### The whole overlap -/

/-- What an overlap comes to in which a write makes a leaf while others wait to make it too. -/
structure Creates (p : Plant) (key : String) (seed : Seed) (values : List Value)
    (writes : List (Seed × List Value)) (script : List Step) : Prop where
  /-- As long as the call is stopped, the key has no leaf and is answered so. -/
  absent : ∀ part ∈ (begun p (.set key seed values)).ordinaryParts script
      (run p (.set key seed values) script).during,
    part.met.has key = false ∧
      (part.call.key? = some key → part.call.isSet = false →
        part.answer = part.call.freedAnswer part.met)
  stopped : (run p (.set key seed values) script).stopped = .unit (.ok ())
  started : (run p (.set key seed values) script).started =
    writes.map fun write => .unit (creationAnswer seed write)
  /-- The new leaf stands directly behind the root, before what the other calls have left. -/
  plant : (run p (.set key seed values) script).plant =
    (reached p (.set key seed values) script).link
      (.create key seed ((lastCreated seed values writes).map Element.ofValue))
  names : (run p (.set key seed values) script).plant.chain.map Leaf.name =
    key :: p.chain.map Leaf.name
  apart : ∀ leaf ∈ p.chain, leaf.name ≠ key
  /-- It is the leaf of the key, and holds the values of the last call that has been accepted. -/
  made : ∃ leaf, (run p (.set key seed values) script).plant.chain.head? = some leaf ∧
    (run p (.set key seed values) script).plant.find? key = some leaf ∧
    leaf.seed = seed ∧ leaf.flags = .empty ∧ leaf.hostWord = 0 ∧
    leaf.values = .ok (lastCreated seed values writes)

/-- Writes of a key that has no leaf wait to make it. -/
theorem waiting_of_serves {q : Plant} {waiting : List Waiting} {asked : List (Call × Plant)}
    (hserves : List.Forall₂ (fun w ask => w.Serves ask.2 q ask.1) waiting asked)
    (hreads : ∀ w ∈ waiting, w.ReadsOnly) {key : String}
    (hnone : q.find? key = none) {writes : List (Seed × List Value)}
    (hasked : asked.map Prod.fst = writes.map fun write => .set key write.1 write.2) :
    waiting = writes.map fun write => .inserting key write.1 write.2 := by
  induction hserves generalizing writes with
  | nil =>
      obtain rfl := List.map_eq_nil_iff.mp hasked.symm
      rfl
  | @cons w ask waiting asked hserve _ ih =>
      obtain ⟨call, met⟩ := ask
      cases writes with
      | nil => cases hasked
      | cons write writes =>
          obtain ⟨hcall, hrest⟩ := List.cons.inj hasked
          obtain rfl : call = .set key write.1 write.2 := hcall
          rw [List.map_cons, ih (fun w hw => hreads w (List.mem_cons_of_mem _ hw)) hrest]
          -- The key has no leaf, so a write of it can only wait to make one.
          cases hserve with
          | publishing hfind =>
              rw [hnone] at hfind
              cases hfind
          | updating _ hfind =>
              rw [hnone] at hfind
              cases hfind
          | inserting => rfl
          | reading => cases hreads _ List.mem_cons_self _ rfl

section

variable {p : Plant} (hp : p.WellFormed) (hlive : p.isDefunct = false) {key : String}
  (habsent : p.has key = false) {seed : Seed} (hseed : seed.isValid = true) (values : List Value)

include hp hlive habsent hseed

omit hp in
/-- A write of an absent key is stopped with the rights. -/
theorem of?_creating :
    Stopped.of? p (.set key seed values) = some (.inserting key seed values) := by
  show Stopped.ofSet? p key seed values = _
  rw [Stopped.ofSet?, Plant.has_eq_false_iff.mp habsent, hlive, hseed]
  rfl

theorem begun_creating : (begun p (.set key seed values)).stopped = .inserting key seed values ∧
    (begun p (.set key seed values)).Creating p key := by
  have hstops := of?_creating hlive habsent hseed values
  have hstopped : (begun p (.set key seed values)).stopped = .inserting key seed values := by
    rw [begun_eq hstops]
  have hunmark : (begun p (.set key seed values)).plant.unmark = p :=
    unmark_begun hp (Option.isSome_of_mem hstops)
  refine ⟨hstopped, ⟨seed, values, hstopped⟩, ?_, ?_, fun other => ?_, habsent⟩
  · intro w hw
    cases hw
  · rw [hunmark]
    exact hlive
  · rw [hunmark]

variable {values} {script : List Step} (hadm : Admissible p (.set key seed values) script)

include hadm

/-- Until the call goes on, the chain keeps its names, and the key has no leaf. -/
theorem absent_creating : ∀ q ∈ (begun p (.set key seed values)).plants script,
    q.unmark.WellFormed ∧ q.unmark.chain.map Leaf.name = p.chain.map Leaf.name ∧
      q.unmark.isDefunct = false ∧ q.find? key = none := by
  obtain ⟨-, hcreating⟩ := begun_creating hp hlive habsent hseed values
  have hany : ∀ s ∈ script, s.call.Obeys fun _ _ => True := fun _ _ _ _ _ => trivial
  intro q hq
  have hwf := (effects_begun hp hadm hany q hq).1
  obtain ⟨hnames, hd⟩ :=
    (begun_sound hp hadm.1).names_plants hadm.2 hcreating.rightsTaken q hq
  rw [unmark_begun hp hadm.1] at hnames hd
  refine ⟨hwf, hnames, hd.trans hlive, ?_⟩
  rw [← Plant.has_eq_false_iff, ← Plant.has_unmark,
    hp.has_congr hwf.toSearchable hnames hd]
  exact habsent

/-- All that wait in the end are the writes that have been started. -/
theorem waiting_creating {writes : List (Seed × List Value)}
    (hstarted : startedCalls script = writes.map fun write => .set key write.1 write.2) :
    ((begun p (.set key seed values)).steps script).1.waiting =
      writes.map fun write => .inserting key write.1 write.2 := by
  obtain ⟨-, -, -, hnone⟩ := absent_creating hp hlive habsent hseed hadm _
    (plant_steps_mem_plants _ script)
  have hserves := ((begun_sound hp hadm.1).steps hadm.2).serves
  rw [List.nil_append] at hserves
  have hreads := readsOnly_steps hadm.2 (fun w hw => by cases hw)
  refine waiting_of_serves hserves hreads ?_ ((asked_calls _ script).trans hstarted)
  rw [← Plant.has_eq_false_iff, Plant.has_unmark, Plant.has_eq_false_iff]
  exact hnone

/-- So the call goes on with a key that has no leaf, on a chain with the old names. -/
theorem reached_creating : (reached p (.set key seed values) script).WellFormed ∧
    (reached p (.set key seed values) script).chain.map Leaf.name = p.chain.map Leaf.name ∧
    (reached p (.set key seed values) script).isDefunct = false ∧
    (reached p (.set key seed values) script).find? key = none := by
  obtain ⟨hlast, hnames, hd, hnone⟩ := absent_creating hp hlive habsent hseed hadm _
    (plant_steps_mem_plants _ script)
  rw [reached_eq hp hadm]
  refine ⟨hlast, hnames, hd, ?_⟩
  rw [← Plant.has_eq_false_iff, Plant.has_unmark, Plant.has_eq_false_iff]
  exact hnone

/-- The call links its leaf, and the writes that have waited are served on it. -/
theorem run_creating (hfit : ∀ v ∈ values, v.fits seed = true) {writes : List (Seed × List Value)}
    (hstarted : startedCalls script = writes.map fun write => .set key write.1 write.2) :
    run p (.set key seed values) script =
      ⟨.unit (.ok ()), ((begun p (.set key seed values)).steps script).2,
        writes.map fun write => .unit (creationAnswer seed write),
        (reached p (.set key seed values) script).link
          (.create key seed ((lastCreated seed values writes).map Element.ofValue))⟩ := by
  obtain ⟨hlast, -, hd, hnone⟩ := reached_creating hp hlive habsent hseed hadm
  obtain ⟨hstopped, -⟩ := begun_creating hp hlive habsent hseed values
  obtain ⟨ha, hplant⟩ := Plant.set_of_encodeAll_ok hd hnone
    (Element.encodeAll_eq_ok_iff.mpr ⟨hseed, hfit, rfl⟩)
  have hfinish := ((begun_sound hp hadm.1).steps hadm.2).finish_eq
    ((begun p (.set key seed values)).steps script).2
  -- Nobody waits to put elements in place, so the writes are served on what the call leaves.
  have hpublish : ∀ w ∈ writes.map fun write => Waiting.inserting key write.1 write.2,
      ∀ name, w.publishes name = false := by
    intro w hw name
    obtain ⟨write, -, rfl⟩ := List.mem_map.mp hw
    rfl
  have hwants : ∀ w ∈ writes.map fun write => Waiting.inserting key write.1 write.2,
      w.wantsRights = true := by
    intro w hw
    obtain ⟨write, -, rfl⟩ := List.mem_map.mp hw
    rfl
  rw [waiting_creating hp hlive habsent hseed hadm hstarted, stopped_steps, hstopped,
    ← reached_eq hp hadm] at hfinish
  simp only [Stopped.finish, ha, hplant] at hfinish
  rw [publish_all_eq_self hpublish, serveAll_of_wantRights _ _ hwants, List.map_map] at hfinish
  refine hfinish.trans ?_
  rw [show writes.map (Started.waiting ∘ fun write => .inserting key write.1 write.2) =
      writes.map fun write => .waiting (.inserting key write.1 write.2) from rfl,
    serve_creations _ hlast hd hnone hseed hfit]

end

/-- Overlapping creations of one key make one leaf. A write of an absent key is stopped, and writes
of the same key are started, with other calls in between that are made at once. Such a script can
always be played if these neither make a leaf nor remove one. They find the key absent to the end.
The stopped call makes the leaf; each of the others is accepted if it asks for the same seed with
values that fit it, and refused for its seed otherwise; and the leaf is left with the values of the
last call that has been accepted, at the front of a chain that has kept its order. -/
theorem creations_make_one_leaf {p : Plant} (hp : p.Reachable) (hlive : p.isDefunct = false)
    {key : String} (habsent : p.has key = false) {seed : Seed} {values : List Value}
    (hhold : (p.set key seed values).answer = .ok ()) {script : List Step}
    {writes : List (Seed × List Value)}
    (hstarted : startedCalls script = writes.map fun write => .set key write.1 write.2)
    (hvalid : ∀ write ∈ writes, write.1.isValid = true) :
    ((∀ call, .now call ∈ script → call.sparesChain p = true) →
      Admissible p (.set key seed values) script) ∧
    (Admissible p (.set key seed values) script → Creates p key seed values writes script) := by
  have hwf := hp.wellFormed
  obtain ⟨hseed, hfit⟩ :=
    Plant.accepted_of_absent hlive (Plant.has_eq_false_iff.mp habsent) hhold
  constructor
  · intro hscript
    obtain ⟨-, hcreating⟩ := begun_creating hwf hlive habsent hseed values
    have hstops := Option.isSome_of_mem (of?_creating hlive habsent hseed values)
    refine ⟨hstops, hcreating.isFeasible (begun_sound hwf hstops) ?_ hscript⟩
    rw [hstarted]
    intro call hcall
    obtain ⟨write, hwrite, rfl⟩ := List.mem_map.mp hcall
    exact ⟨write.1, write.2, rfl, hvalid write hwrite⟩
  · intro hadm
    obtain ⟨hlast, hnames, hd, hnone⟩ := reached_creating hwf hlive habsent hseed hadm
    -- The leaf is made when the stopped call goes on, and all others find it there.
    have hrun := run_creating hwf hlive habsent hseed hadm hfit hstarted
    have hleft := fits_lastCreated hfit writes
    have hmade := hlast.link hd hnone (Element.encodeAll_eq_ok_iff.mpr ⟨hseed, hleft, rfl⟩)
    have hname := hmade.toSearchable.leafName_of_link
    refine ⟨?_, ?_, ?_, ?_, ?_, ?_, ?_⟩
    · intro part hpart
      obtain ⟨-, -, -, hmet⟩ := absent_creating hwf hlive habsent hseed hadm _
        (mem_plants_of_mem_ordinaryParts part hpart)
      obtain ⟨now, hnow, hanswer⟩ := answerNow_of_mem_ordinaryParts part hpart
      refine ⟨Plant.has_eq_false_iff.mpr hmet, fun hkey hset => ?_⟩
      rw [hanswer, answerNow_of_absent (hnow ▸ hmet) hkey, ← hnow]
      exact Plant.answer_of_absent hmet hkey hset
    · rw [hrun]
    · rw [hrun]
    · rw [hrun]
    · rw [hrun, ← hnames]
      show (Leaf.create key seed _).name :: _ = _
      rw [Leaf.name_create]
    · intro leaf hleaf hsame
      have hother := hwf.ne_of_find?_none hlive (Plant.has_eq_false_iff.mp habsent) leaf
        (List.mem_cons_of_mem _ hleaf)
      exact hother (hsame.trans hname.symm)
    · rw [hrun]
      refine ⟨_, rfl, ?_, rfl, rfl, rfl, ?_⟩
      · rw [hlast.find?_link hd hmade.toSearchable, if_pos]
        rw [Leaf.name_create, hname]
      · exact Element.decodeAll_map_ofValue hleft

end Overlap

end

/-- Four writes wait to make a leaf that a fifth makes: one under another seed, one with a value
that does not fit, and two that are accepted. -/
theorem Overlap.creations_make_one_leaf_of_mixed :
    let p := ((Plant.make 7 false).run [.set "b" .int [.int 1], .set "c" .int [.int 2]]).1
    let writes : List (Seed × List Value) := [(.int, [.int 5]), (.boolean, [.boolean true]),
      (.int, [.int 6, .int 7]), (.int, [.boolean true])]
    let script : List Step := [.start (.set "a" .int [.int 5]), .now (.get "a" 0),
      .start (.set "a" .boolean [.boolean true]), .now (.set "b" .int [.int 3]),
      .start (.set "a" .int [.int 6, .int 7]), .start (.set "a" .int [.boolean true])]
    let report := Overlap.run p (.set "a" .int [.int 4]) script
    p.Reachable ∧ p.isDefunct = false ∧ p.has "a" = false ∧
      (p.set "a" .int [.int 4]).answer = .ok () ∧
      (∀ write ∈ writes, write.1.isValid = true) ∧
      (∀ call, .now call ∈ script → call.sparesChain p = true) ∧
      Overlap.Creates p "a" .int [.int 4] writes script ∧
      report.started = [.unit (.ok ()), .unit (.error .wrongSeedType), .unit (.ok ()),
        .unit (.error .wrongSeedType)] ∧
      report.plant.chain.map Leaf.name = ["a", "c", "b"] ∧
      lastCreated .int [.int 4] writes = [.int 6, .int 7] := by
  intro p writes script report
  have hp : p.Reachable := .call (.call (.make 7 false) _) _
  have hscript : ∀ call, .now call ∈ script → call.sparesChain p = true := by
    intro call hcall
    simp only [script, List.mem_cons, reduceCtorEq, false_or, Step.now.injEq, List.not_mem_nil,
      or_false] at hcall
    rcases hcall with rfl | rfl
    · rfl
    · decide
  have hlive : p.isDefunct = false := by decide
  have habsent : p.has "a" = false := by decide
  have hhold : (p.set "a" .int [.int 4]).answer = .ok () := by decide
  have hstarted : startedCalls script = writes.map fun write => .set "a" write.1 write.2 := rfl
  have hvalid : ∀ write ∈ writes, write.1.isValid = true := by decide
  obtain ⟨hadm, hcreates⟩ := creations_make_one_leaf hp hlive habsent hhold hstarted hvalid
  have hcreates := hcreates (hadm hscript)
  exact ⟨hp, hlive, habsent, hhold, hvalid, hscript, hcreates,
    hcreates.started.trans (by decide), hcreates.names.trans (by decide), by decide⟩

end PlantStore
