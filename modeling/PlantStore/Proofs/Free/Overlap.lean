import PlantStore.Proofs.Free.Filter
import PlantStore.Proofs.Overlap.Sequential
import PlantStore.Proofs.Protection.Protected

/-! # A `free` in an overlap

A `free` that is started while another call is stopped takes effect when that call has left, on
the plant to which the ordinary calls and the stopped one have led. In two points it differs from
a `free` that is made there and then. It has looked at the flag of the root when it was started,
and looks at it again only when the chain is empty; and if it is the one that has the rights, it
has gone past the undeletable leaves at the front of the chain and does not come back to them. So
it keeps those leaves whatever has become of their flags, and it removes the others even if the
root is undeletable by then. Unless such a flag is changed meanwhile, there is no difference. -/

namespace PlantStore

/-! ### A `free` that has gone past some leaves -/

/-- What is left behind an index and what is kept before it, as one filter by names. -/
theorem filter_behind {α β : Type} [BEq β] [LawfulBEq β] {name : α → β} {l : List α}
    (h : (l.map name).Nodup) (keep : α → Bool) (n : Nat) :
    l.take n ++ (l.drop n).filter keep =
      l.filter fun a => keep a || ((l.take n).map name).contains (name a) := by
  have hsplit : (l.take n).map name ++ (l.drop n).map name = l.map name := by
    rw [← List.map_append, List.take_append_drop]
  rw [← hsplit] at h
  -- Names are unique, so none behind the index occurs before it.
  have hapart := (List.nodup_append'.mp h).2.2
  conv_rhs => rw [← List.take_append_drop n l, List.filter_append]
  congr 1
  · rw [List.take_append_drop]
    refine (List.filter_eq_self.mpr fun a ha => ?_).symm
    rw [List.contains_iff_mem.mpr (List.mem_map_of_mem ha), Bool.or_true]
  · rw [List.take_append_drop]
    refine List.filter_congr fun a ha => ?_
    have hnot : ((l.take n).map name).contains (name a) = false := by
      rw [List.contains_eq_mem]
      exact decide_eq_false fun hmem => hapart hmem (List.mem_map_of_mem ha)
    rw [hnot, Bool.or_false]

namespace Plant

/-- What a `free` answers and leaves that keeps the leaves of some names, and that looks at the
root only in the end. -/
def freePast (p : Plant) (passed : List String) : Result Unit × Plant :=
  let left := { p with
    chain := p.chain.filter fun leaf => leaf.isUndeletable || passed.contains leaf.name }
  if left.chain.isEmpty && !p.root.isUndeletable then (.ok (), left.bury)
  else (.error .undeletable, left)

theorem chain_freePast (p : Plant) (passed : List String) :
    (p.freePast passed).2.chain =
      p.chain.filter fun leaf => leaf.isUndeletable || passed.contains leaf.name := by
  rw [freePast]
  dsimp only
  split <;> rfl

/-- The flags that make no difference to a `free` that has gone past some leaves: they leave those
undeletable, and the root not. -/
def Indifferent (passed : List String) (name : String) (flags : LeafFlags) : Prop :=
  (name = rootKey → flags.contains .undeletable = false) ∧
    (name ∈ passed → flags.contains .undeletable = true)

variable [KeyHash]

/-- A `free` that begins behind some leaves keeps them. -/
theorem Searchable.freeFrom_eq_freePast {p : Plant} (h : p.Searchable) (start : Nat) :
    p.freePast ((p.chain.take start).map Leaf.name) =
      ((p.freeFrom start).answer, (p.freeFrom start).plant) := by
  have hchain : (p.sweep start).chain = p.chain.filter fun leaf =>
      leaf.isUndeletable || ((p.chain.take start).map Leaf.name).contains leaf.name :=
    filter_behind h.chain_nodup Leaf.isUndeletable start
  have hleft : { p with chain := p.chain.filter fun leaf =>
      leaf.isUndeletable || ((p.chain.take start).map Leaf.name).contains leaf.name } =
      p.sweep start := by
    rw [← hchain]
    rfl
  rw [freePast, hleft]
  rcases p.freeFrom_cases start with ⟨hne, ha, hp⟩ | ⟨hnil, hu, ha, hp⟩ | ⟨hnil, hu, ha, hp⟩
  · rw [ha, hp, if_neg]
    simp [hne]
  · rw [ha, hp, if_neg]
    simp [hu]
  · rw [ha, hp, if_pos]
    simp [hnil, hu]

/-- If the root may go and the leaves that have been passed are still undeletable, this is what a
`free` does. -/
theorem freePast_eq_free {p : Plant} (hd : p.isDefunct = false)
    (hu : p.root.isUndeletable = false) {passed : List String}
    (hpassed : ∀ leaf ∈ p.chain, leaf.name ∈ passed → leaf.isUndeletable = true) :
    p.freePast passed = (p.free.answer, p.free.plant) := by
  have hkeep : p.chain.filter (fun leaf => leaf.isUndeletable || passed.contains leaf.name) =
      p.chain.filter Leaf.isUndeletable := by
    refine List.filter_congr fun leaf hleaf => ?_
    rw [Bool.eq_iff_iff, Bool.or_eq_true, List.contains_iff_mem]
    exact ⟨fun hor => hor.elim id (hpassed leaf hleaf), .inl⟩
  rw [freePast, hkeep]
  by_cases hkept : ∃ leaf ∈ p.chain, leaf.isUndeletable = true
  · obtain ⟨ha, hp⟩ := free_of_kept hu hd hkept
    obtain ⟨leaf, hleaf, hleafu⟩ := hkept
    have hne := List.ne_nil_of_mem (List.mem_filter.mpr ⟨hleaf, hleafu⟩)
    rw [ha, hp, if_neg (by simp [List.isEmpty_eq_false_iff.mpr hne])]
  · have hnone : ∀ leaf ∈ p.chain, leaf.isUndeletable = false := by
      intro leaf hleaf
      exact Bool.eq_false_iff.mpr fun hleafu => hkept ⟨leaf, hleaf, hleafu⟩
    have hnil : p.chain.filter Leaf.isUndeletable = [] :=
      List.filter_eq_nil_iff.mpr fun leaf hleaf => Bool.eq_false_iff.mp (hnone leaf hleaf)
    obtain ⟨ha, hp⟩ := free_of_none_kept hu hd hnone
    rw [ha, hp, hnil, if_pos (by simp [hu])]

end Plant

namespace Overlap

section

variable [KeyHash]

/-! ### While a `free` waits -/

/-- Calls that are made at once start nothing, and the stopped call stays where it is. -/
theorem steps_now (o : Overlap) (calls : List Call) :
    (o.steps (calls.map .now)).1.stopped = o.stopped ∧
      (o.steps (calls.map .now)).1.started = o.started := by
  induction calls generalizing o with
  | nil => exact ⟨rfl, rfl⟩
  | cons call calls ih => exact ih (o.step (.now call)).1

/-- While somebody has the rights, no move takes a leaf out, puts one in or exchanges two. -/
theorem Moves.names_eq {o : Overlap} {q : Plant} (hmove : o.Moves q)
    (htaken : o.rightsTaken = true) :
    q.chain.map Leaf.name = o.plant.chain.map Leaf.name ∧ q.isDefunct = o.plant.isDefunct := by
  have halter : ∀ name {f : Leaf → Leaf}, Leaf.IsContent f →
      (o.plant.alter name f).chain.map Leaf.name = o.plant.chain.map Leaf.name ∧
        (o.plant.alter name f).isDefunct = o.plant.isDefunct := fun name f hf =>
    ⟨Plant.map_name_alter o.plant.chain name hf, Plant.isDefunct_alter _ name hf⟩
  cases hmove with
  | stays => exact ⟨rfl, rfl⟩
  | writes name hf hflags => exact halter name hf
  | flags hf hfree => exact halter _ hf
  | links hlinked hd hfree =>
      rw [htaken] at hfree
      cases hfree
  | removes q hnot hfree =>
      rw [htaken] at hfree
      cases hfree

/-- A call that joins those who wait takes the rights from nobody. -/
theorem rightsTaken_start {o : Overlap} {call : Call} {w : Waiting} (hw : o.wait? call = some w)
    (htaken : o.rightsTaken = true) : (o.step (.start call)).1.rightsTaken = true := by
  have hstopped : (o.start call).stopped = o.stopped := by rw [Overlap.start, hw]
  show ((o.start call).stopped.hasRights || (o.start call).waiting.any Waiting.wantsRights) = true
  rw [rightsTaken, Bool.or_eq_true] at htaken
  rw [hstopped, waiting_start hw, List.any_append, Bool.or_eq_true, Bool.or_eq_true]
  exact htaken.imp id .inl

section

variable {start : Plant} {hold : Call} {asked : List (Call × Plant)} {o : Overlap}
  (h : o.Sound start hold asked)

include h

/-- Whoever has the rights keeps them for the rest of a script, in which the leaves of the chain
keep their order and the plant is not freed. -/
theorem Sound.names_plants {script : List Step} (hfeasible : o.isFeasible script = true)
    (htaken : o.rightsTaken = true) : ∀ q ∈ o.plants script,
      q.unmark.chain.map Leaf.name = o.plant.unmark.chain.map Leaf.name ∧
        q.unmark.isDefunct = o.plant.unmark.isDefunct := by
  replace hfeasible := feasible_of_isFeasible hfeasible
  induction hfeasible generalizing asked with
  | nil =>
      intro q hq
      obtain rfl := List.mem_singleton.mp hq
      exact ⟨rfl, rfl⟩
  | @now o call rest hfree hrest ih =>
      refine List.forall_mem_cons.mpr ⟨⟨rfl, rfl⟩, fun q hlater => ?_⟩
      -- As long as the rights are taken, a call that is made at once neither links nor removes.
      have hmove : o.unmark.Moves (o.answerNow call).plant.unmark := by
        rw [← plant_answerNow_unmark]
        exact moves_answerNow h.wellFormed ((o.wait?_unmark call).trans hfree)
      obtain ⟨hnames, hdefunct⟩ := hmove.names_eq htaken
      obtain ⟨hnames', hdefunct'⟩ := ih (h.now hfree) htaken q hlater
      exact ⟨hnames'.trans hnames, hdefunct'.trans hdefunct⟩
  | @start o call rest w hw hrest ih =>
      have hkept := ih (h.started hw) (rightsTaken_start hw htaken)
      rw [show (o.step (.start call)).1.plant.unmark = o.plant.unmark from
        plant_start_unmark hw] at hkept
      exact List.forall_mem_cons.mpr ⟨⟨rfl, rfl⟩, hkept⟩

end

/-! ### The stopped call -/

/-- A call that has been stopped does, when it goes on, what the call does by itself. -/
theorem finish_begun {met q : Plant} {hold : Call} (hstops : (Stopped.of? met hold).isSome = true)
    (h : (begun met hold).stopped.Holds met q hold) (hq : q.Searchable) :
    ((begun met hold).stopped.finish q).2 = (q.perform hold).plant := by
  obtain ⟨s, hs⟩ := Option.isSome_iff_exists.mp hstops
  rw [begun_eq hs] at h ⊢
  cases hold with
  | get key index =>
      obtain ⟨leaf, -, rfl⟩ := Stopped.ofRead?_eq_some hs
      rfl
  | getAll key =>
      obtain ⟨leaf, -, rfl⟩ := Stopped.ofRead?_eq_some hs
      rfl
  | keys =>
      obtain rfl := Stopped.of?_keys hs
      rfl
  | set key seed values =>
      cases h with
      | reading hplant =>
          -- A write is not stopped in a read.
          cases hmet : met.find? key with
          | some leaf => cases (Stopped.ofSet?_of_find?_some hmet hs).2
          | none => cases Stopped.ofSet?_of_find?_none hmet hs
      | @updating _ _ _ leaf hfind hseed =>
          show (q.updateNow (leafName key) seed values).plant = _
          rw [hq.updateNow_leafName]
          exact (Plant.set_of_find?_some (hq.isDefunct_of_find? hfind) hfind seed values).2.symm
      | inserting hfind => rfl
  | _ => cases hs

/-- Without the rights a stopped call keeps the order of the chain when it goes on. -/
theorem names_finish {q : Plant} (hq : q.Searchable) {s : Stopped} (h : s.hasRights = false) :
    (s.finish q).2.chain.map Leaf.name = q.chain.map Leaf.name := by
  cases s with
  | updating name seed values =>
      show (q.updateNow name seed values).plant.chain.map Leaf.name = _
      rcases hq.updateNow_cases name seed values with ⟨e, -, hp⟩ | ⟨leaf, elements, -, -, -, hp⟩
      · rw [hp]
      · rw [hp]
        exact Plant.map_name_alter q.chain _ (Leaf.isContent_elements elements)
  | inserting key seed values => cases h
  | _ => rfl

/-! ### The start -/

/-- A script in which one call is started, and that is a `free`. -/
def withFree (before after : List Call) : List Step :=
  before.map .now ++ .start .free :: after.map .now

/-- The leaves that a `free` goes past when it is started: those at the front of the chain that
are undeletable then, unless it has to wait for the rights first. -/
def passed (p : Plant) (hold : Call) (before : List Call) : List String :=
  if (begun p hold).stopped.hasRights then []
  else ((reached p hold (before.map .now)).chain.takeWhile Leaf.isUndeletable).map Leaf.name

omit [KeyHash] in
/-- How a `free` waits if no other call does. -/
theorem waitFree?_cases {o : Overlap} (hnone : o.started = []) {w : Waiting}
    (hw : o.waitFree? = some w) :
    o.plant.root.isUndeletable = false ∧
      (o.stopped.hasRights = true ∧ w = .freeing ∨
        o.stopped.hasRights = false ∧
          w = .sweeping (o.plant.chain.takeWhile Leaf.isUndeletable).length) := by
  have hrights : o.rightsTaken = o.stopped.hasRights := by
    rw [rightsTaken, waiting, hnone]
    exact Bool.or_false _
  rw [← hrights]
  exact waitFree?_eq_some hw

omit [KeyHash] in
theorem wantsRights_of_waitFree? {o : Overlap} (hnone : o.started = []) {w : Waiting}
    (hw : o.waitFree? = some w) : w.wantsRights = true := by
  rcases (waitFree?_cases hnone hw).2 with ⟨-, rfl⟩ | ⟨-, rfl⟩ <;> rfl

/-- The overlap when the `free` is started. -/
def whenStarted (p : Plant) (hold : Call) (before : List Call) : Overlap :=
  ((begun p hold).steps (before.map .now)).1

/-- The overlap when the stopped call goes on. -/
def whenResumed (p : Plant) (hold : Call) (before after : List Call) : Overlap :=
  (((whenStarted p hold before).start .free).steps (after.map .now)).1

theorem asked_now (o : Overlap) (calls : List Call) : o.asked (calls.map .now) = [] := by
  induction calls generalizing o with
  | nil => rfl
  | cons call calls ih => exact ih (o.step (.now call)).1

theorem stopped_whenStarted (p : Plant) (hold : Call) (before : List Call) :
    (whenStarted p hold before).stopped = (begun p hold).stopped ∧
      (whenStarted p hold before).started = [] :=
  steps_now (begun p hold) before

theorem run_withFree (p : Plant) (hold : Call) (before after : List Call) : ∃ during,
    run p hold (withFree before after) = (whenResumed p hold before after).finish during := by
  refine ⟨((begun p hold).steps (withFree before after)).2, ?_⟩
  have hsteps : ((begun p hold).steps (withFree before after)).1 =
      whenResumed p hold before after := by
    rw [withFree, steps_append]
    rfl
  rw [← hsteps]
  rfl

/-- The `free` is the only call that waits, and the stopped one is where it was. -/
theorem waiting_whenResumed {p : Plant} {hold : Call} {before : List Call} {w : Waiting}
    (hw : (whenStarted p hold before).waitFree? = some w) (after : List Call) :
    (whenResumed p hold before after).waiting = [w] ∧
      (whenResumed p hold before after).stopped = (begun p hold).stopped := by
  obtain ⟨hstopped, hstarted⟩ := stopped_whenStarted p hold before
  have hwait : (whenStarted p hold before).wait? .free = some w := hw
  obtain ⟨hstopped', hstarted'⟩ := steps_now ((whenStarted p hold before).start .free) after
  constructor
  · have hnone : (whenStarted p hold before).waiting = [] := by
      rw [waiting, hstarted]
      rfl
    have hwaiting : (whenResumed p hold before after).waiting =
        ((whenStarted p hold before).start .free).waiting := by
      rw [waiting, waiting, whenResumed, hstarted']
    rw [hwaiting, waiting_start hwait, hnone]
    rfl
  · rw [whenResumed, hstopped', ← hstopped, Overlap.start, hwait]

section

variable {p : Plant} {hold : Call} {before after : List Call}

/-- The parts of the script suit the overlap as it is then, and the `free` has to wait. -/
theorem feasible_withFree (h : Admissible p hold (withFree before after)) :
    Admissible p hold (before.map .now) ∧
      ((whenStarted p hold before).start .free).isFeasible (after.map .now) = true ∧
      ∃ w, (whenStarted p hold before).waitFree? = some w := by
  obtain ⟨hcan, hfeasible⟩ := h
  rw [withFree, isFeasible_append, Bool.and_eq_true, isFeasible, Bool.and_eq_true] at hfeasible
  obtain ⟨hbefore, hstart, hafter⟩ := hfeasible
  exact ⟨⟨hcan, hbefore⟩, hafter, Option.isSome_iff_exists.mp hstart⟩

variable (hp : p.WellFormed) (h : Admissible p hold (withFree before after))

include hp h

theorem sound_whenStarted : (whenStarted p hold before).Sound p hold [] := by
  have hsound := (begun_sound hp h.1).steps (feasible_withFree h).1.2
  rw [asked_now] at hsound
  exact hsound

variable {w : Waiting} (hw : (whenStarted p hold before).waitFree? = some w)

include hw

theorem sound_start : ((whenStarted p hold before).start .free).Sound p hold
    [(.free, (whenStarted p hold before).plant)] :=
  (sound_whenStarted hp h).started hw

theorem sound_whenResumed : (whenResumed p hold before after).Sound p hold
    [(.free, (whenStarted p hold before).plant)] := by
  have hsound := (sound_start hp h hw).steps (feasible_withFree h).2.1
  rw [asked_now, List.append_nil] at hsound
  exact hsound

/-- While the `free` waits, the leaves keep their order and the plant is not freed. -/
theorem names_whenResumed :
    (whenResumed p hold before after).plant.unmark.chain.map Leaf.name =
        (whenStarted p hold before).plant.unmark.chain.map Leaf.name ∧
      (whenResumed p hold before after).plant.unmark.isDefunct = false := by
  have hwait : (whenStarted p hold before).wait? .free = some w := hw
  have hwants := wantsRights_of_waitFree? (stopped_whenStarted p hold before).2 hw
  have htaken : ((whenStarted p hold before).start .free).rightsTaken = true := by
    rw [rightsTaken, waiting_start hwait, Bool.or_eq_true]
    have hmem : w ∈ (whenStarted p hold before).waiting ++ [w] :=
      List.mem_append_right _ (List.mem_singleton_self w)
    exact .inr (List.any_eq_true.mpr ⟨w, hmem, hwants⟩)
  obtain ⟨hnames, -⟩ :=
    (sound_start hp h hw).names_plants (feasible_withFree h).2.1 htaken _
      (plant_steps_mem_plants _ _)
  rw [plant_start_unmark hwait] at hnames
  rw [Plant.isDefunct_unmark]
  exact ⟨hnames, (sound_whenResumed hp h hw).live⟩

/-! ### The turn -/

/-- The plant on which the `free` has its turn is the one that the ordinary calls and then the
stopped one lead to. -/
theorem finish_whenResumed :
    ((whenResumed p hold before after).stopped.finish
        (whenResumed p hold before after).plant.unmark).2 =
      ((reached p hold (withFree before after)).perform hold).plant := by
  have hsound := sound_whenResumed hp h hw
  obtain ⟨hstopped, hstarted⟩ := stopped_whenStarted p hold before
  obtain ⟨-, hstopped'⟩ := waiting_whenResumed hw after
  have hreached : reached p hold (withFree before after) =
      (whenResumed p hold before after).plant.unmark := by
    rw [reached_eq hp h, withFree, steps_append]
    rfl
  have hholds := hsound.holds
  rw [hstopped'] at hholds ⊢
  rw [hreached]
  exact finish_begun h.1 hholds hsound.wellFormed.toSearchable

/-- No update waits, so this is also the plant on which the started calls begin. -/
theorem published_whenResumed :
    (whenResumed p hold before after).waiting.foldl Waiting.publish
        ((whenResumed p hold before after).stopped.finish
          (whenResumed p hold before after).plant.unmark).2 =
      ((reached p hold (withFree before after)).perform hold).plant := by
  obtain ⟨-, hstarted⟩ := stopped_whenStarted p hold before
  rw [(waiting_whenResumed hw after).1, finish_whenResumed hp h hw]
  rcases (waitFree?_cases hstarted hw).2 with ⟨-, rfl⟩ | ⟨-, rfl⟩ <;> rfl

theorem live_at_turn :
    let q := ((reached p hold (withFree before after)).perform hold).plant
    q.WellFormed ∧ q.isDefunct = false := by
  intro q
  have hsound := sound_whenResumed hp h hw
  have hturn : ((whenResumed p hold before after).stopped.finish
      (whenResumed p hold before after).plant.unmark).2 = q := finish_whenResumed hp h hw
  constructor
  · rw [← hturn]
    exact wellFormed_finish_stopped hsound.wellFormed _
  · rw [← hturn, (finish_keeps_stopped hsound.wellFormed.toSearchable _).1]
    exact (names_whenResumed hp h hw).2

/-- At its turn the `free` keeps the leaves that it has gone past. -/
theorem finish_at_turn :
    let q := ((reached p hold (withFree before after)).perform hold).plant
    let outcome := q.freePast (passed p hold before)
    w.finish q q = (.unit outcome.1, outcome.2) := by
  intro q outcome
  have hsound := sound_whenResumed hp h hw
  obtain ⟨-, hstopped⟩ := waiting_whenResumed hw after
  obtain ⟨hstopped', hstarted⟩ := stopped_whenStarted p hold before
  obtain ⟨hq, hd⟩ := live_at_turn hp h hw
  rcases (waitFree?_cases hstarted hw).2 with ⟨hrights, rfl⟩ | ⟨hrights, rfl⟩
  · -- It has waited for the rights, and has gone past nothing.
    have hpassed : passed p hold before = (q.chain.take 0).map Leaf.name := by
      rw [passed, if_pos (hstopped' ▸ hrights)]
      rfl
    have hfree : q.freeAfterWait = q.freeFrom 0 := if_neg (Bool.eq_false_iff.mp hd)
    show (Answer.unit q.freeAfterWait.answer, q.freeAfterWait.plant) = _
    rw [hfree]
    simp only [outcome]
    rw [hpassed, hq.freeFrom_eq_freePast]
  · -- It goes on from an index. The leaves before it are still those that it has gone past, since
    -- it has kept the rights.
    have hbefore : reached p hold (before.map .now) = (whenStarted p hold before).plant.unmark :=
      reached_eq hp (feasible_withFree h).1
    have hresumed := names_finish hsound.wellFormed.toSearchable
      (hstopped.trans hstopped'.symm ▸ hrights : _ = false)
    rw [finish_whenResumed hp h hw] at hresumed
    have hpassed : passed p hold before = (q.chain.take
        ((whenStarted p hold before).plant.chain.takeWhile Leaf.isUndeletable).length).map
          Leaf.name := by
      rw [passed, if_neg (by rw [← hstopped', hrights]; exact Bool.false_ne_true), hbefore,
        List.map_take, hresumed, (names_whenResumed hp h hw).1, ← List.map_take]
      exact congrArg _ (List.prefix_iff_eq_take.mp (List.takeWhile_prefix _))
    show (Answer.unit (q.unmark.freeFrom _).answer, (q.unmark.freeFrom _).plant) = _
    rw [q.unmark_of_not hq.root_unmarked]
    simp only [outcome]
    rw [hpassed, hq.freeFrom_eq_freePast]

/-- The overlap ends with the turn of the `free`. -/
theorem free_at_turn :
    let q := ((reached p hold (withFree before after)).perform hold).plant
    let outcome := q.freePast (passed p hold before)
    (run p hold (withFree before after)).started = [.unit outcome.1] ∧
      (run p hold (withFree before after)).plant = outcome.2 := by
  intro q outcome
  have hturn : w.finish q q = (.unit outcome.1, outcome.2) := finish_at_turn hp h hw
  obtain ⟨during, hrun⟩ := run_withFree p hold before after
  have hwants : ∀ other ∈ [w], other.wantsRights = true := fun other hother =>
    List.mem_singleton.mp hother ▸
      wantsRights_of_waitFree? (stopped_whenStarted p hold before).2 hw
  rw [hrun, (sound_whenResumed hp h hw).finish_eq]
  dsimp only
  rw [published_whenResumed hp h hw, (waiting_whenResumed hw after).1,
    serveAll_of_wantRights _ _ hwants]
  constructor
  · show [(w.finish q q).1] = _
    rw [hturn]
  · show (w.finish q q).2 = _
    rw [hturn]

/-! ### Flags that make no difference -/

omit hp h hw in
theorem mem_passed {name : String} (hname : name ∈ passed p hold before) :
    (begun p hold).stopped.hasRights = false ∧
      ∃ leaf ∈ (reached p hold (before.map .now)).chain,
        leaf.name = name ∧ leaf.isUndeletable = true := by
  rw [passed] at hname
  split at hname
  · cases hname
  next hrights =>
    obtain ⟨leaf, hleaf, rfl⟩ := List.mem_map.mp hname
    exact ⟨Bool.eq_false_iff.mpr hrights, leaf, (List.takeWhile_prefix _).subset hleaf, rfl,
      List.mem_takeWhile_imp hleaf⟩

/-- What the ordinary calls do while the `free` waits, and then the stopped one, is done by
effects. -/
theorem effects_at_turn {allowed : String → LeafFlags → Prop}
    (hafter : ∀ call ∈ after, call.Obeys allowed) :
    Plant.Effects allowed (whenStarted p hold before).plant.unmark
      ((reached p hold (withFree before after)).perform hold).plant := by
  have hsound := sound_whenResumed hp h hw
  have hwait : (whenStarted p hold before).wait? .free = some w := hw
  have hscript : ∀ s ∈ after.map Step.now, s.call.Obeys allowed := by
    intro s hs
    obtain ⟨call, hcall, rfl⟩ := List.mem_map.mp hs
    exact hafter call hcall
  have hwaits := ((sound_start hp h hw).effects_plants (feasible_withFree h).2.1 hscript _
    (plant_steps_mem_plants _ _)).2
  rw [plant_start_unmark hwait] at hwaits
  have hhold : hold.Obeys allowed := obeys_of_canStop h.canStop
  have hresumes := hsound.effects_published hhold
  rw [published_whenResumed hp h hw] at hresumes
  exact hwaits.trans hresumes

/-- If nobody asks for another flag of those leaves or of the root, they are as the `free` has found
them. -/
theorem flags_at_turn
    (hafter : ∀ call ∈ after, call.Obeys (Plant.Indifferent (passed p hold before))) :
    let q := ((reached p hold (withFree before after)).perform hold).plant
    q.root.isUndeletable = false ∧
      ∀ leaf ∈ q.chain, leaf.name ∈ passed p hold before → leaf.isUndeletable = true := by
  intro q
  -- The root and the leaves that have been passed: the effects of the other calls keep either.
  have heffects := effects_at_turn hp h hw hafter
  have hstart := (sound_whenStarted hp h).wellFormed
  obtain ⟨hq, hd⟩ := live_at_turn hp h hw
  obtain ⟨-, hstarted⟩ := stopped_whenStarted p hold before
  obtain ⟨hu, -⟩ := waitFree?_cases hstarted hw
  constructor
  · have hkeep : ∀ leaf next : Leaf, leaf.isUndeletable = false →
        leaf.Becomes (Plant.Indifferent (passed p hold before) rootKey) next →
        next.isUndeletable = false := by
      intro leaf next hleaf hbecomes
      cases hbecomes with
      | flags flags hflags =>
          have hasked := hflags.1 rfl
          rw [LeafFlags.contains_undeletable] at hasked
          simp [Leaf.isUndeletable, hasked]
      | _ => exact hleaf
    have hroot : (whenStarted p hold before).plant.unmark.root.isUndeletable = false := by
      rw [Plant.root_unmark, Leaf.isUndeletable_unmark]
      exact hu
    rcases heffects.root hkeep hstart.root_name hroot with hfreed | ⟨-, -, hgood⟩
    · rw [hd] at hfreed
      cases hfreed
    · exact hgood
  · intro leaf hleaf hname
    obtain ⟨hrights, old, hmem, hsame, holdu⟩ := mem_passed hname
    rw [reached_eq hp (feasible_withFree h).1] at hmem
    have hlive : (whenStarted p hold before).plant.unmark.isDefunct = false := by
      rw [Plant.isDefunct_unmark]
      exact (sound_whenStarted hp h).live
    have hkeep : ∀ leaf next : Leaf, leaf.isUndeletable = true →
        leaf.Becomes (Plant.Indifferent (passed p hold before) old.name) next →
        next.isUndeletable = true := by
      intro leaf next hleaf hbecomes
      cases hbecomes with
      | flags flags hflags =>
          have hasked := hflags.2 (hsame ▸ hname)
          rw [LeafFlags.contains_undeletable] at hasked
          simp [Leaf.isUndeletable, hasked]
      | _ => exact hleaf
    obtain ⟨-, next, hnext, hnextName, hnextu⟩ := heffects.bears (fun _ => id) hkeep
      ⟨hlive, old, List.mem_cons_of_mem _ hmem, rfl, holdu⟩
    obtain rfl : next = leaf :=
      hq.eq_of_name hnext (List.mem_cons_of_mem _ hleaf) (hnextName.trans hsame)
    exact hnextu

end

/-! ### The theorem -/

/-- A `free` that is started in an overlap, with the calls that are made at once before and after
it. It has the answer and the effect of a `free` on the plant to which those calls and then the
stopped one lead, save that it keeps the leaves that it has gone past and looks at the root last.
There is no difference if those are undeletable then and the root is not; and so it is if nobody
has asked for another flag of them meanwhile. Every leaf that it leaves is undeletable, or was so
when it was gone past. -/
theorem overlapped_free {p : Plant} (hp : p.Reachable) {hold : Call} {before after : List Call}
    (h : Admissible p hold (withFree before after)) :
    let q := ((reached p hold (withFree before after)).perform hold).plant
    let report := run p hold (withFree before after)
    let outcome := q.freePast (passed p hold before)
    (report.started = [.unit outcome.1] ∧ report.plant = outcome.2) ∧
    (q.root.isUndeletable = false →
      (∀ leaf ∈ q.chain, leaf.name ∈ passed p hold before → leaf.isUndeletable = true) →
      report.started = [.unit q.free.answer] ∧ report.plant = q.free.plant) ∧
    ((∀ call ∈ after, call.Obeys (Plant.Indifferent (passed p hold before))) →
      report.started = [.unit q.free.answer] ∧ report.plant = q.free.plant) ∧
    (∀ leaf ∈ report.plant.chain, leaf ∈ q.chain ∧
      (leaf.isUndeletable = true ∨ leaf.name ∈ passed p hold before)) ∧
    ∀ name ∈ passed p hold before, ∃ leaf ∈ (reached p hold (before.map .now)).chain,
      leaf.name = name ∧ leaf.isUndeletable = true := by
  intro q report outcome
  obtain ⟨w, hw⟩ := (feasible_withFree h).2.2
  obtain ⟨-, hd⟩ := live_at_turn hp.wellFormed h hw
  obtain ⟨hstarted, hplant⟩ := free_at_turn hp.wellFormed h hw
  have hsame : q.root.isUndeletable = false →
      (∀ leaf ∈ q.chain, leaf.name ∈ passed p hold before → leaf.isUndeletable = true) →
      report.started = [.unit q.free.answer] ∧ report.plant = q.free.plant := by
    intro hu hpassed
    have hfree := Plant.freePast_eq_free hd hu hpassed
    refine ⟨hstarted.trans ?_, hplant.trans ?_⟩
    · rw [hfree]
    · rw [hfree]
  refine ⟨⟨hstarted, hplant⟩, hsame, ?_, ?_, fun name hname => (mem_passed hname).2⟩
  · intro hafter
    obtain ⟨hu, hpassed⟩ := flags_at_turn hp.wellFormed h hw hafter
    exact hsame hu hpassed
  · intro leaf hleaf
    have hchain : report.plant.chain = q.chain.filter fun leaf =>
        leaf.isUndeletable || (passed p hold before).contains leaf.name :=
      (congrArg Plant.chain hplant).trans (q.chain_freePast _)
    rw [hchain, List.mem_filter, Bool.or_eq_true, List.contains_iff_mem] at hleaf
    exact hleaf

end

/-- A `free` that has gone past one leaf. Of the other two one is flagged while it waits. -/
theorem overlapped_free_of_flagging :
    let p := ((Plant.make 7 false).run [.set "a" .int [.int 1], .set "b" .int [.int 2]]).1
    let before : List Call := [.set "c" .int [.int 3], .setFlags "c" .undeletable]
    let after : List Call := [.setFlags "c" ⟨3⟩, .setFlags "a" .undeletable]
    let report := run p (.getAll "a") (withFree before after)
    let q := ((reached p (.getAll "a") (withFree before after)).perform (.getAll "a")).plant
    p.Reachable ∧ Admissible p (.getAll "a") (withFree before after) ∧
      passed p (.getAll "a") before = ["c"] ∧
      (∀ call ∈ after, call.Obeys (Plant.Indifferent (passed p (.getAll "a") before))) ∧
      report.started = [.unit q.free.answer] ∧ report.plant = q.free.plant ∧
      report.plant.names = ["type", "c", "a"] := by
  intro p before after report q
  have hp : p.Reachable := .call (.call (.make 7 false) _) _
  have hadm : Admissible p (.getAll "a") (withFree before after) := by decide +kernel
  have hpassed : passed p (.getAll "a") before = ["c"] := by decide +kernel
  have hafter : ∀ call ∈ after, call.Obeys (Plant.Indifferent (passed p (.getAll "a") before)) := by
    rw [hpassed]
    rintro call hcall key flags rfl
    rcases List.mem_cons.mp hcall with heq | hcall
    · cases heq
      exact ⟨by decide, by decide⟩
    · cases List.mem_singleton.mp hcall
      exact ⟨by decide, by decide⟩
  obtain ⟨-, -, hsame, -⟩ := overlapped_free hp hadm
  obtain ⟨hstarted, hplant⟩ := hsame hafter
  exact ⟨hp, hadm, hpassed, hafter, hstarted, hplant, by decide +kernel⟩

/-- Not every `free` of an overlap is one that is made when the stopped call has left. The flag of
a leaf is cleared that the `free` has gone past: it leaves that leaf, though there is no undeletable
one any more. The root is flagged while the `free` waits: it is refused and has emptied the
chain. -/
theorem overlapped_free_not_sequential :
    (let p := ((Plant.make 7 false).run
      [.set "a" .int [.int 1], .set "b" .int [.int 1], .setFlags "b" .undeletable]).1
    let script := withFree [] [.setFlags "b" .empty]
    let q := ((reached p (.getAll "a") script).perform (.getAll "a")).plant
    let report := run p (.getAll "a") script
    p.Reachable ∧ Admissible p (.getAll "a") script ∧
      q.free.answer = .ok () ∧ report.started = [.unit (.error .undeletable)] ∧
      report.plant ≠ q.free.plant ∧ report.plant.root.isUndeletable = false ∧
      ∃ leaf ∈ report.plant.chain, leaf.isUndeletable = false) ∧
    (let p := ((Plant.make 7 false).run [.set "a" .int [.int 1]]).1
    let script := withFree [] [.setFlags "type" ⟨3⟩]
    let q := ((reached p (.getAll "a") script).perform (.getAll "a")).plant
    let report := run p (.getAll "a") script
    p.Reachable ∧ Admissible p (.getAll "a") script ∧
      q.free.answer = .error .undeletable ∧ q.free.plant = q ∧
      report.started = [.unit (.error .undeletable)] ∧ report.plant ≠ q ∧
      report.plant.names = ["type"]) := by
  constructor
  · intro p script q report
    exact ⟨.call (.call (.call (.make 7 false) _) _) _, by decide +kernel⟩
  · intro p script q report
    exact ⟨.call (.make 7 false) _, by decide +kernel⟩

end Overlap
end PlantStore
