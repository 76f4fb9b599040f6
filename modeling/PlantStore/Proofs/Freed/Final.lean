import PlantStore.Proofs.Freed.Rest

/-! # Freed for good

A plant that has been freed stays as it is for the rest of every session, and every call that
comes upon it is told that there is no leaf. -/

namespace PlantStore

section

variable [KeyHash]

namespace Overlap

/-! ### Scripts -/

section

variable {start : Plant} {hold : Call} {asked : List (Call × Plant)} {o : Overlap}
  (h : o.Sound start hold asked) {script : List Step} (hfeasible : o.isFeasible script = true)

include h hfeasible

/-- As long as a call is stopped, the plant is not freed. -/
theorem Sound.live_plants : ∀ q ∈ o.plants script, q.isDefunct = false := by
  replace hfeasible := feasible_of_isFeasible hfeasible
  induction hfeasible generalizing asked with
  | nil =>
      intro q hq
      obtain rfl := List.mem_singleton.mp hq
      exact h.live
  | now hfree hrest ih => exact List.forall_mem_cons.mpr ⟨h.live, ih (h.now hfree)⟩
  | start hw hrest ih => exact List.forall_mem_cons.mpr ⟨h.live, ih (h.started hw)⟩

/-- So no `free` that is made at once is answered with success. -/
theorem Sound.free_ordinary : ∀ part ∈ o.ordinaryParts script (o.steps script).2,
    part.call = .free → part.answer ≠ .unit (.ok ()) := by
  replace hfeasible := feasible_of_isFeasible hfeasible
  induction hfeasible generalizing asked with
  | nil =>
      intro part hpart
      cases hpart
  | @now o call rest hfree hrest ih =>
      have hnow := h.now hfree
      refine List.forall_mem_cons.mpr ⟨fun hcall hok => ?_, ih hnow⟩
      -- A successful `free` would have left a freed plant to the rest of the script.
      obtain rfl : call = .free := hcall
      have hfreed : (o.step (.now .free)).1.plant.isDefunct = true :=
        Plant.isDefunct_free (Answer.unit.inj hok)
      rw [hnow.live] at hfreed
      cases hfreed
  | start hw hrest ih => exact ih (h.started hw)

end

/-! ### The end -/

/-- A waiting call that does not want the rights does not free a plant. -/
theorem isDefunct_finish_waiting (seen : Plant) {p : Plant} (hp : p.unmark.WellFormed)
    {w : Waiting} (hw : w.wantsRights = false) :
    (w.finish seen p).2.isDefunct = p.isDefunct := by
  rw [← Plant.isDefunct_unmark, ← w.finish_plant_unmark seen seen p, ← p.isDefunct_unmark]
  cases w with
  | updating name seed values => exact hp.isDefunct_updateNow name seed values
  | flagging name flags => exact hp.isDefunct_change name (Leaf.isContent_flags flags)
  | inserting => cases hw
  | removing => cases hw
  | deleting => cases hw
  | sweeping => cases hw
  | freeing => cases hw
  | _ => rfl

/-- When a waiting call has freed the plant, the mark is off. -/
theorem unmark_servings_of_isDefunct (seen : Plant) {p : Plant} (hp : p.unmark.WellFormed)
    {ws : List Waiting}
    (hordered : ws.Pairwise fun a b => a.wantsRights = true → b.marksRoot = false)
    (hmarked : p.unmark = p ∨ p.isDefunct = false ∧ ∃ w ∈ ws, w.marksRoot = true) :
    ∀ q ∈ servings seen p ws, q.isDefunct = true → q.unmark = q := by
  induction ws generalizing p with
  | nil =>
      intro q hq
      cases hq
  | cons w ws ih =>
      obtain ⟨hfirst, hrest⟩ := List.pairwise_cons.mp hordered
      have hnext : (w.finish seen p).2.unmark.WellFormed := by
        rw [← w.finish_plant_unmark seen seen p]
        exact wellFormed_finish_waiting seen hp w
      have hnextMarked : (w.finish seen p).2.unmark = (w.finish seen p).2 ∨
          (w.finish seen p).2.isDefunct = false ∧ ∃ w ∈ ws, w.marksRoot = true := by
        rcases hmarked with hsame | ⟨hlive, other, hother, hmarks⟩
        · exact .inl (w.finish_unmarked seen (.inl hsame))
        rcases List.mem_cons.mp hother with rfl | hother
        · exact .inl (Waiting.finish_unmarked seen (.inr hmarks))
        · -- Who has put the mark on comes later, so this call does not want the rights.
          have hwants : w.wantsRights = false := by
            apply Bool.eq_false_iff.mpr
            intro hwants
            rw [hfirst other hother hwants] at hmarks
            cases hmarks
          exact .inr ⟨(isDefunct_finish_waiting seen hp hwants).trans hlive, other, hother, hmarks⟩
      intro q hq hd
      rcases List.mem_cons.mp hq with rfl | hq
      · rcases hnextMarked with hsame | ⟨hlive, -⟩
        · exact hsame
        · rw [hlive] at hd
          cases hd
      · exact ih hnext hrest hnextMarked q hq hd

/-- The turns of the waiting calls leave a freed plant as it is. -/
theorem serve_of_isDefunct (seen : Plant) {p : Plant} (hp : p.WellFormed)
    (hd : p.isDefunct = true) (ws : List Waiting) : (serve seen p (ws.map .waiting)).2 = p := by
  induction ws with
  | nil => rfl
  | cons w ws ih =>
      have hturn : Plant.Turn (fun _ _ => True) p (w.finish seen p).2 :=
        w.turn_finish seen (p.unmark_of_not hp.root_unmarked) fun _ _ _ => trivial
      show (serve seen (w.finish seen p).2 (ws.map .waiting)).2 = p
      rw [hp.eq_of_turn hd hturn]
      exact ih

/-- A `free` that is answered with success at its turn leaves a freed plant to the calls behind
it. -/
theorem isDefunct_serve (seen : Plant) {p r : Plant} (hp : p.WellFormed)
    {served : List (Waiting × Call × Plant)}
    (hserves : ∀ entry ∈ served, entry.1.Serves entry.2.2 r entry.2.1)
    (hreads : ∀ entry ∈ served, entry.1.ReadsOnly) :
    ∀ part ∈ (servedParts seen p served).map Prod.snd, part.call = .free →
      part.answer = .unit (.ok ()) →
      (serve seen p ((served.map Prod.fst).map .waiting)).2.isDefunct = true := by
  induction served generalizing p with
  | nil =>
      intro part hpart
      cases hpart
  | cons entry rest ih =>
      obtain ⟨w, call, met⟩ := entry
      have hnext := wellFormed_finish_waiting seen hp w
      have hunmark : p.unmark = p := p.unmark_of_not hp.root_unmarked
      intro part hpart hfree hok
      show (serve seen (w.finish seen p).2 ((rest.map Prod.fst).map .waiting)).2.isDefunct = true
      rcases List.mem_cons.mp hpart with rfl | hpart
      · obtain rfl : call = .free := hfree
        have hw : w.Serves met r .free := hserves _ List.mem_cons_self
        -- Only a `free` serves a call of `free`, since that is no read.
        have hfreed : (w.finish seen p).2.isDefunct = true := by
          cases hw with
          | @sweeping start =>
              have hanswer : (p.unmark.freeFrom start).answer = .ok () := Answer.unit.inj hok
              show (p.unmark.freeFrom start).plant.isDefunct = true
              exact Plant.isDefunct_freeFrom hanswer
          | freeing => exact Plant.isDefunct_freeAfterWait (Answer.unit.inj hok)
          | reading =>
              have hread := hreads _ List.mem_cons_self .free rfl
              cases hread
        rw [serve_of_isDefunct seen hnext hfreed]
        exact hfreed
      · exact ih hnext (fun entry hentry => hserves entry (List.mem_cons_of_mem _ hentry))
          (fun entry hentry => hreads entry (List.mem_cons_of_mem _ hentry)) part hpart hfree hok

section

variable {start : Plant} {hold : Call} {asked : List (Call × Plant)} {o : Overlap}
  (h : o.Sound start hold asked)

include h

/-- The plants of the end are not marked when they have been freed. -/
theorem Sound.unmark_ending_of_isDefunct : ∀ q ∈ o.ending, q.isDefunct = true → q.unmark = q := by
  let resumed := (o.stopped.finish o.plant).2
  let published := o.waiting.foldl Waiting.publish resumed
  have hresumed : resumed.unmark = _ := o.unmark_resumed
  have hpublished : published.unmark = _ := o.unmark_published
  -- Neither the stopped call nor the updates free the plant.
  have hwf := wellFormed_finish_stopped h.wellFormed o.stopped
  have hlive : resumed.isDefunct = false := by
    rw [← Plant.isDefunct_unmark, hresumed,
      (finish_keeps_stopped h.wellFormed.toSearchable o.stopped).1, Plant.isDefunct_unmark, h.live]
  have hlive' : published.isDefunct = false := by
    rw [← Plant.isDefunct_unmark, hpublished, (publish_all_keeps hwf.toSearchable o.waiting).1,
      ← hresumed, Plant.isDefunct_unmark, hlive]
  have hmarked : published.unmark = published ∨
      published.isDefunct = false ∧ ∃ w ∈ Waiting.turns o.waiting, w.marksRoot = true := by
    rcases h.marked with hp | ⟨w, hw, hmarks⟩
    · left
      rw [hpublished, hp]
    · exact .inr ⟨hlive', w, Waiting.mem_turns.mpr hw, hmarks⟩
  intro q hq hd
  rcases List.mem_cons.mp hq with rfl | hq
  · exact absurd hd (Bool.eq_false_iff.mp hlive)
  rcases List.mem_cons.mp hq with rfl | hq
  · exact absurd hd (Bool.eq_false_iff.mp hlive')
  · exact unmark_servings_of_isDefunct published (hpublished ▸ h.wellFormed_published)
      h.turns_ordered hmarked q hq hd

/-- A started `free` that is answered with success has freed the plant that is left. -/
theorem Sound.isDefunct_of_started (hreads : ∀ w ∈ o.waiting, w.ReadsOnly)
    (during : List (Option Answer)) :
    ∀ part ∈ startedParts asked (o.finish during).started, part.call = .free →
      part.answer = .unit (.ok ()) → (o.finish during).plant.isDefunct = true := by
  obtain ⟨hfst, hserved⟩ := h.turns_served
  let published := o.waiting.foldl Waiting.publish (o.stopped.finish o.plant.unmark).2
  have hserve := isDefunct_serve published h.wellFormed_published
    (fun entry hentry => (hserved entry hentry).2.2)
    fun entry hentry => hreads entry.1 (hserved entry hentry).1
  rw [hfst] at hserve
  intro part hpart
  rw [h.plant_finish]
  exact hserve part ((h.startedParts_turns during).subset hpart)

end

/-! ### A whole overlap -/

section

variable {p : Plant} (hp : p.WellFormed) {hold : Call} {script : List Step}
  (hadm : Admissible p hold script)

include hp hadm

/-- No call of an overlap comes upon a freed plant. -/
theorem live_of_mem_parts : ∀ part ∈ parts p hold script, part.met.isDefunct = false := by
  have hbegun := begun_sound hp hadm.1
  have hlive := hbegun.live_plants hadm.2
  intro part hpart
  rcases List.mem_cons.mp hpart with rfl | hpart
  · have hfirst := hbegun.live
    rw [← Plant.isDefunct_unmark, unmark_begun hp hadm.1] at hfirst
    exact hfirst
  rcases List.mem_append.mp hpart with hordinary | hstarted
  · exact hlive _ (mem_plants_of_mem_ordinaryParts part hordinary)
  · exact hlive _ (mem_plants_of_mem_asked _ (met_of_mem_startedParts part hstarted))

/-- A `free` that is answered with success in an overlap has freed the plant that is left. -/
theorem isDefunct_run : ∀ part ∈ parts p hold script, part.call = .free →
    part.answer = .unit (.ok ()) → (run p hold script).plant.isDefunct = true := by
  have hbegun := begun_sound hp hadm.1
  intro part hpart hfree hok
  rcases List.mem_cons.mp hpart with rfl | hpart
  · obtain rfl : hold = .free := hfree
    cases hadm.canStop
  rcases List.mem_append.mp hpart with hordinary | hstarted
  · exact absurd hok (hbegun.free_ordinary hadm.2 part hordinary hfree)
  · have hreads := readsOnly_steps hadm.2 fun w hw => by cases hw
    exact (hbegun.steps hadm.2).isDefunct_of_started hreads _ part hstarted hfree hok

end

end Overlap

namespace Plant

/-! ### A whole session -/

section

variable {p : Plant} (hp : p.Reachable)

include hp

/-- Freed plants are not marked, wherever in the course of a session they are. -/
theorem Reachable.unmark_course {session : List Episode} (hadm : p.AdmitsAll session) :
    ∀ q ∈ p.course session, q.isDefunct = true → q.unmark = q := by
  have hstart : p.unmark = p := p.unmark_of_not hp.wellFormed.root_unmarked
  induction session generalizing p with
  | nil =>
      intro q hq _
      obtain rfl := List.mem_singleton.mp hq
      exact hstart
  | cons e session ih =>
      have hnext := hp.after hadm.1
      intro q hq
      rcases List.mem_cons.mp hq with rfl | hq
      · exact fun _ => hstart
      -- No plant inside an overlap is freed, so only those at its turns matter.
      rcases List.mem_append.mp hq with hinside | hq
      · cases e with
        | alone call => cases hinside
        | overlap hold script =>
            intro hd
            rw [(Overlap.begun_sound hp.wellFormed hadm.1.1).live_plants hadm.1.2 q hinside] at hd
            cases hd
      rcases List.mem_append.mp hq with hclosing | hlater
      · cases e with
        | alone call => cases hclosing
        | overlap hold script =>
            exact ((Overlap.begun_sound hp.wellFormed hadm.1.1).steps
              hadm.1.2).unmark_ending_of_isDefunct q hclosing
      · exact ih hnext hadm.2 ((p.after e).unmark_of_not hnext.wellFormed.root_unmarked) q hlater

/-- From the moment on at which it has been freed a plant stays as it is. -/
theorem Reachable.still_of_isDefunct {session : List Episode} (hadm : p.AdmitsAll session) :
    (p.course session).Pairwise fun q r => q.isDefunct = true → r = q := by
  have hany : ∀ e ∈ session, e.Obeys fun _ _ => True := fun _ _ _ _ _ _ _ => trivial
  have htrans : Trans (fun q r : Plant => q.isDefunct = true → r = q)
      (fun q r : Plant => q.isDefunct = true → r = q)
      (fun q r : Plant => q.isDefunct = true → r = q) := by
    refine ⟨fun {a b c} hab hbc hd => ?_⟩
    obtain rfl := hab hd
    exact hbc hd
  -- From moment to moment it is one turn, and a turn on a freed plant is idle.
  refine List.IsChain.pairwise ?_
  refine List.IsChain.imp_of_mem_imp (fun q r hq hr hturn hd => ?_) (hp.turns_course hadm hany)
  have hunmark := hp.unmark_course hadm q hq hd
  have hsame : r.unmark = q.unmark := (hp.wellFormed_course hadm q hq).eq_of_turn
    (q.isDefunct_unmark.trans hd) hturn
  have hdr : r.isDefunct = true := by
    rw [← r.isDefunct_unmark, hsame, q.isDefunct_unmark, hd]
  rw [← hp.unmark_course hadm r hr hdr, hsame, hunmark]

/-- Every call of a session that comes upon a freed plant is told that there is no leaf. -/
theorem Reachable.freed_parts {session : List Episode} (hadm : p.AdmitsAll session) :
    ∀ part ∈ (p.trace session).parts, part.met.isDefunct = true →
      part.answer = part.call.freedAnswer part.met := by
  induction session generalizing p with
  | nil =>
      intro part hpart
      cases hpart
  | cons e session ih =>
      have hlater := ih (hp.after hadm.1) hadm.2
      intro part hpart hd
      cases e with
      | alone call =>
          rcases List.mem_cons.mp hpart with rfl | hrest
          · exact (perform_of_isDefunct hd (hp.wellFormed.freed hd).2.2.2 call).1
          · exact hlater part hrest hd
      | overlap hold script =>
          rcases List.mem_append.mp hpart with hfirst | hrest
          · rw [Overlap.live_of_mem_parts hp.wellFormed hadm.1 part hfirst] at hd
            cases hd
          · exact hlater part hrest hd

/-- The course of a session on a freed plant is that plant, over and over. -/
theorem Reachable.eq_of_mem_course (hd : p.isDefunct = true) {session : List Episode}
    (hadm : p.AdmitsAll session) : ∀ q ∈ p.course session, q = p := by
  obtain ⟨rest, hcourse⟩ := p.course_eq_cons session
  have hstill := hp.still_of_isDefunct hadm
  rw [hcourse] at hstill ⊢
  intro q hq
  rcases List.mem_cons.mp hq with rfl | hq
  · rfl
  · exact (List.pairwise_cons.mp hstill).1 q hq hd

/-- A session in which a `free` is answered with success leaves a freed plant. -/
theorem Reachable.isDefunct_afterAll {session : List Episode} (hadm : p.AdmitsAll session) :
    ∀ part ∈ (p.trace session).parts, part.call = .free → part.answer = .unit (.ok ()) →
      (p.afterAll session).isDefunct = true := by
  induction session generalizing p with
  | nil =>
      intro part hpart
      cases hpart
  | cons e session ih =>
      have hnext := hp.after hadm.1
      have hlater := ih hnext hadm.2
      have hkept (hd : (p.after e).isDefunct = true) :
          ((p.after e).afterAll session).isDefunct = true := by
        rw [hnext.eq_of_mem_course hd hadm.2 _ (afterAll_mem_course _ session)]
        exact hd
      intro part hpart hfree hok
      cases e with
      | alone call =>
          rcases List.mem_cons.mp hpart with rfl | hrest
          · obtain rfl : call = .free := hfree
            exact hkept (isDefunct_free (Answer.unit.inj hok))
          · exact hlater part hrest hfree hok
      | overlap hold script =>
          rcases List.mem_append.mp hpart with hfirst | hrest
          · exact hkept (Overlap.isDefunct_run hp.wellFormed hadm.1 part hfirst hfree hok)
          · exact hlater part hrest hfree hok

end

/-- Freed is final, and to be seen everywhere. In the course of every session on a reachable plant,
overlaps and their ends included, all that tells a freed plant is told by any of it; a freed plant
stays as it is; and a call that comes upon one is told that there is no leaf, whatever it asks for.

A `free` that is answered with success, by itself or at its turn in an overlap, leaves such a
plant. So whatever follows, no call changes the plant any more, and every answer is the one of a
freed plant. -/
theorem freed_is_final {p : Plant} (hp : p.Reachable) {session : List Episode}
    (hadm : p.AdmitsAll session) :
    (∀ q ∈ p.course session,
      [q.isDefunct = true, q.length = 0, q.isEmpty = true, q.keys = .ok [],
        q.has "type" = false, ∀ key, q.has key = false].TFAE) ∧
    ((p.course session).Pairwise fun q r => q.isDefunct = true → r = q) ∧
    (∀ part ∈ (p.trace session).parts, part.met.isDefunct = true →
      part.answer = part.call.freedAnswer part.met) ∧
    (∀ q : Plant, (q.perform .free).answer = .unit (.ok ()) →
      (q.perform .free).plant.isDefunct = true) ∧
    ∀ part ∈ (p.trace session).parts, part.call = .free → part.answer = .unit (.ok ()) →
      let f := p.afterAll session
      f.isDefunct = true ∧ ∀ later : List Episode, f.AdmitsAll later →
        (∀ q ∈ f.course later, q = f) ∧
        ∀ next ∈ (f.trace later).parts, next.answer = next.call.freedAnswer f := by
  refine ⟨?_, hp.still_of_isDefunct hadm, hp.freed_parts hadm, ?_, ?_⟩
  · exact fun q hq => tfae_isDefunct (hp.wellFormed_course hadm q hq)
  · exact fun q hok => isDefunct_free (Answer.unit.inj hok)
  · intro part hpart hfree hok f
    have hd := hp.isDefunct_afterAll hadm part hpart hfree hok
    have hf : f.Reachable := hp.afterAll hadm
    refine ⟨hd, fun later hlater => ?_⟩
    have hsame := hf.eq_of_mem_course hd hlater
    refine ⟨hsame, fun next hnext => ?_⟩
    have hmet : next.met = f := hsame _ (met_mem_course f later next hnext)
    rw [hf.freed_parts hlater next hnext (hmet ▸ hd), hmet]

end Plant

end

namespace Plant

/-- A `free` that waits for a reader, with a write behind it that is made of a freed plant. -/
theorem freed_is_final_of_waiting :
    let p := ((make 7 false).perform (.set "a" .int [.int 1])).plant
    let session : List Episode :=
      [.overlap (.getAll "a") [.start .free, .start (.set "b" .int [.int 2])]]
    let later : List Episode :=
      [.alone (.set "" .invalid [.int 8]), .alone .free, .alone .type]
    let f := p.afterAll session
    p.Reachable ∧ p.AdmitsAll session ∧ p.isDefunct = false ∧ f.isDefunct = true ∧
      f.AdmitsAll later ∧ (∀ q ∈ f.course later, q = f) ∧
      ∀ next ∈ (f.trace later).parts, next.answer = next.call.freedAnswer f := by
  intro p session later f
  have hp : p.Reachable := .call (.make 7 false) _
  have hadm : p.AdmitsAll session := by decide
  have hlater : f.AdmitsAll later := by decide
  obtain ⟨part, hpart, hfree, hok⟩ : ∃ part ∈ (p.trace session).parts,
      part.call = .free ∧ part.answer = .unit (.ok ()) := by decide
  obtain ⟨-, -, -, -, hfinal⟩ := freed_is_final hp hadm
  obtain ⟨hd, hafter⟩ := hfinal part hpart hfree hok
  exact ⟨hp, hadm, by decide, hd, hlater, hafter later hlater⟩

end Plant

end PlantStore
