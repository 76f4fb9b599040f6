import PlantStore.Proofs.Reserved.Kept

/-! # Flags in a session

A call that is answered with success to a change of flags has changed them at some place of the
course, by itself, in the middle of an overlap or at its turn. With it the whole account of flags in
a session is put together. -/

namespace PlantStore

section

variable [KeyHash]

/-- A call has been answered about flags as the plants of a list tell: a question by the plant that
it came upon, and a change with success only if it has been granted from one plant to the next, with
the store's half of all flags left as it was. -/
structure Part.FlagsIn (plants : List Plant) (part : Part) : Prop where
  seen : ∀ key, part.call = .flagsOf key → part.answer = .flags (part.met.flagsOf key)
  granted : ∀ key flags, part.call = .setFlags key flags → part.answer = .unit (.ok ()) →
    ∃ q r, [q, r] <:+: plants ∧ q.Grants r key flags ∧
      r.leaves.map Leaf.marks = q.leaves.map Leaf.marks

theorem Part.FlagsIn.mono {part : Part} {a b : List Plant} (h : part.FlagsIn a) (hab : a <:+: b) :
    part.FlagsIn b where
  seen := h.seen
  granted := by
    intro key flags hcall hok
    obtain ⟨q, r, hnext, hgrants, hmarks⟩ := h.granted key flags hcall hok
    exact ⟨q, r, hnext.trans hab, hgrants, hmarks⟩

/-- A call that is made at once is answered as a list of plants tells in which the plant that it
leaves is the next one. -/
theorem Part.flagsIn_of_outcome {plants : List Plant} {role : Role} {call : Call} {p : Plant}
    {outcome : Outcome Answer} (hnext : [p, outcome.plant] <:+: plants)
    (hask : ∀ key, call = .flagsOf key → outcome = p.perform call)
    (hchange : ∀ key flags, call = .setFlags key flags → outcome = p.perform call) :
    (⟨role, call, p, outcome.answer⟩ : Part).FlagsIn plants where
  seen := by
    intro key hcall
    obtain rfl : call = .flagsOf key := hcall
    rw [hask key rfl]
    rfl
  granted := by
    intro key flags hcall hok
    obtain rfl : call = .setFlags key flags := hcall
    rw [hchange key flags rfl] at hnext hok
    exact ⟨_, _, hnext, ⟨Answer.unit.inj hok, rfl⟩, p.marks_setFlags key flags⟩

/-- A key and the name that it stands for are granted the same. -/
theorem Plant.Grants.of_leafName {q r : Plant} (hq : q.unmark.WellFormed) {key : String}
    {flags : LeafFlags} (h : q.Grants r (leafName key) flags) : q.Grants r key flags := by
  have hsame : (q.setFlags (leafName key) flags).unmark = (q.setFlags key flags).unmark := by
    rw [← setFlags_unmark, ← setFlags_unmark, hq.setFlags_leafName]
  obtain ⟨hanswer, hplant, -⟩ := Outcome.mk.inj hsame
  exact ⟨hanswer ▸ h.answer, h.plant.trans hplant⟩

namespace Overlap

/-! ### Overlaps -/

/-- The calls of a script that are answered at once. -/
theorem flagsIn_ordinary {o : Overlap} {script : List Step} :
    ∀ part ∈ o.ordinaryParts script (o.steps script).2, part.FlagsIn (o.plants script) := by
  induction script generalizing o with
  | nil =>
      intro part hpart
      cases hpart
  | cons s rest ih =>
      have hlater : (o.step s).1.plants rest <:+: o.plants (s :: rest) :=
        (List.suffix_cons o.plant _).isInfix
      intro part hpart
      cases s with
      | now call =>
          rcases List.mem_cons.mp hpart with rfl | hpart
          · obtain ⟨tail, htail⟩ := (o.step (.now call)).1.plants_eq_cons rest
            have hnext : [o.plant, (o.answerNow call).plant] <:+: o.plants (.now call :: rest) := by
              rw [plants, htail]
              exact ⟨[], tail, rfl⟩
            -- An overlap makes a difference to the calls on the host's word only.
            refine Part.flagsIn_of_outcome hnext ?_ ?_
            · rintro key rfl
              rfl
            · rintro key flags rfl
              rfl
          · exact (ih part hpart).mono hlater
      | start call => exact (ih part hpart).mono hlater

/-- No call that asks for flags is started. -/
theorem ne_flagsOf_of_mem_asked {o : Overlap} {script : List Step}
    (hfeasible : o.isFeasible script = true) :
    ∀ ask ∈ o.asked script, ∀ key, ask.1 ≠ .flagsOf key := by
  replace hfeasible := feasible_of_isFeasible hfeasible
  induction hfeasible with
  | nil =>
      intro ask hask
      cases hask
  | now hfree hrest ih => exact ih
  | start hw hrest ih =>
      refine List.forall_mem_cons.mpr ⟨?_, ih⟩
      rintro key rfl
      cases hw

/-- A change of flags that has waited is granted at its turn. -/
theorem grants_served (seen : Plant) {p r : Plant} (hp : p.unmark.WellFormed)
    {served : List (Waiting × Call × Plant)}
    (hserves : ∀ entry ∈ served, entry.1.Serves entry.2.2 r entry.2.1)
    (hreads : ∀ entry ∈ served, entry.1.ReadsOnly) :
    ∀ part ∈ (servedParts seen p served).map Prod.snd, ∀ key flags,
      part.call = .setFlags key flags → part.answer = .unit (.ok ()) → ∃ a b,
        [a, b] <:+: p :: servings seen p (served.map Prod.fst) ∧
          a.Grants b key flags ∧ b.leaves.map Leaf.marks = a.leaves.map Leaf.marks := by
  induction served generalizing p with
  | nil =>
      intro part hpart
      cases hpart
  | cons entry rest ih =>
      obtain ⟨w, call, met⟩ := entry
      let next := (w.finish seen p).2
      let later := servings seen next (rest.map Prod.fst)
      have hnext : next.unmark.WellFormed := by
        rw [← w.finish_plant_unmark seen seen p]
        exact wellFormed_finish_waiting seen hp w
      intro part hpart key flags hcall hok
      show ∃ a b, [a, b] <:+: p :: next :: later ∧ a.Grants b key flags ∧ _
      rcases List.mem_cons.mp hpart with rfl | hpart
      · obtain rfl : call = .setFlags key flags := hcall
        have hw : w.Serves met r (.setFlags key flags) := hserves _ List.mem_cons_self
        refine ⟨p, next, ⟨[], later, rfl⟩, ?_⟩
        -- A call of `setFlags` waits for the writer mutex and in no other way.
        cases hw with
        | flagging =>
            have hanswer : (p.setFlags (leafName key) flags).answer = .ok () :=
              Answer.unit.inj hok
            exact ⟨.of_leafName hp ⟨hanswer, rfl⟩, p.marks_setFlags (leafName key) flags⟩
        | reading =>
            have hread := hreads _ List.mem_cons_self _ rfl
            cases hread
      · obtain ⟨a, b, hab, hgranted⟩ := ih hnext
          (fun entry hentry => hserves entry (List.mem_cons_of_mem _ hentry))
          (fun entry hentry => hreads entry (List.mem_cons_of_mem _ hentry)) part hpart key flags
          hcall hok
        exact ⟨a, b, hab.trans (List.suffix_cons p _).isInfix, hgranted⟩

/-- The started calls. -/
theorem Sound.flagsIn_started {start : Plant} {hold : Call} {asked : List (Call × Plant)}
    {o : Overlap} (h : o.Sound start hold asked) (hreads : ∀ w ∈ o.waiting, w.ReadsOnly)
    (hasked : ∀ ask ∈ asked, ∀ key, ask.1 ≠ .flagsOf key) (during : List (Option Answer)) :
    ∀ part ∈ startedParts asked (o.finish during).started, part.FlagsIn o.ending := by
  obtain ⟨hfst, hserved⟩ := h.turns_served
  let resumed := (o.stopped.finish o.plant).2
  let published := o.waiting.foldl Waiting.publish resumed
  have hwf : published.unmark.WellFormed := by
    rw [o.unmark_published]
    exact h.wellFormed_published
  have hserve := grants_served published hwf (fun entry hentry => (hserved entry hentry).2.2)
    fun entry hentry => hreads entry.1 (hserved entry hentry).1
  -- The mark shows in the course, so the plants are those of the overlap as it is.
  obtain ⟨hfst', hsnd, -⟩ := h.zip_served
  have hparts := startedParts_perm published published (o.waiting.zip asked)
  rw [hfst', hsnd, ← h.started_eq] at hparts
  intro part hpart
  constructor
  · intro key hcall
    exact absurd hcall (hasked _ (met_of_mem_startedParts part hpart) key)
  · intro key flags hcall hok
    obtain ⟨a, b, hab, hgranted⟩ := hserve part (hparts.subset hpart) key flags hcall hok
    rw [hfst] at hab
    exact ⟨a, b, hab.trans (List.suffix_cons resumed _).isInfix, hgranted⟩

end Overlap

namespace Plant

/-! ### The course -/

/-- All calls of a session are answered about flags as its course tells. -/
theorem Reachable.flagsIn_course {p : Plant} (hp : p.Reachable) {session : List Episode}
    (hadm : p.AdmitsAll session) :
    ∀ part ∈ (p.trace session).parts, part.FlagsIn (p.course session) := by
  induction session generalizing p with
  | nil =>
      intro part hpart
      cases hpart
  | cons e session ih =>
      have hlater : ∀ part ∈ ((p.after e).trace session).parts,
          part.FlagsIn (p.course (e :: session)) := fun part hpart =>
        (ih (hp.after hadm.1) hadm.2 part hpart).mono (p.later_infix_course e session)
      intro part hpart
      cases e with
      | alone call =>
          rcases List.mem_cons.mp hpart with rfl | hrest
          · obtain ⟨tail, htail⟩ := (p.after (.alone call)).course_eq_cons session
            have hnext : [p, (p.perform call).plant] <:+: p.course (.alone call :: session) := by
              rw [course, htail]
              exact ⟨[], tail, rfl⟩
            exact Part.flagsIn_of_outcome hnext (fun _ _ => rfl) fun _ _ _ => rfl
          · exact hlater part hrest
      | overlap hold script =>
          rcases List.mem_append.mp hpart with hfirst | hrest
          · rcases List.mem_cons.mp hfirst with rfl | hfirst
            · -- The call that was stopped has to do with no flags.
              constructor
              · intro key hcall
                obtain rfl : hold = .flagsOf key := hcall
                cases hadm.1.1
              · intro key flags hcall _
                obtain rfl : hold = .setFlags key flags := hcall
                cases hadm.1.1
            rcases List.mem_append.mp hfirst with hordinary | hstarted
            · exact (Overlap.flagsIn_ordinary part hordinary).mono
                (p.inside_infix_course (.overlap hold script) session)
            · have hsteps := (Overlap.begun_sound hp.wellFormed hadm.1.1).steps hadm.1.2
              have hreads := Overlap.readsOnly_steps hadm.1.2 fun w hw => by cases hw
              have hasked := Overlap.ne_flagsOf_of_mem_asked hadm.1.2
              exact (hsteps.flagsIn_started hreads hasked _ part hstarted).mono
                (p.closing_infix_course (.overlap hold script) session)
          · exact hlater part hrest

/-! ### The theorem -/

/-- The store's half of a flag word is out of the callers' reach. In every session on a reachable
plant, overlaps and their ends included,

* the session can take place with each change of flags asking for the lower half of its word only,
  and then takes the same course, with the same answers and reports and the same plant in the end;
* no plant of the course shows a bit of the upper half, and a question about flags is answered as
  the plant that it comes upon tells;
* a change of flags that is answered with success has been granted from one plant of the course to
  the next, with the upper halves of all flags left as they were, and then the lower half of the
  word is seen;
* along any stretch of the course the same flags are seen of a leaf, unless on the way a change of
  them is granted or the leaf goes;
* on any plant a change of flags is granted exactly if there is a leaf, and leaves the upper halves
  of all flags as they are. -/
theorem reserved_out_of_reach {p : Plant} (hp : p.Reachable) {session : List Episode}
    (hadm : p.AdmitsAll session) :
    (p.AdmitsAll (session.map Episode.masked) ∧
      p.trace (session.map Episode.masked) = (p.trace session).masked ∧
      p.course (session.map Episode.masked) = p.course session) ∧
    (∀ q ∈ p.course session, ∀ key, (q.flagsOf key).bits &&& 0xFFFF0000 = 0) ∧
    (∀ part ∈ (p.trace session).parts,
      part.met ∈ p.course session ∧ part.FlagsIn (p.course session)) ∧
    (∀ q r, [q, r] <:+: p.course session → ∀ key flags, q.Grants r key flags →
      r.has key = true ∧ r.flagsOf key = ⟨flags.bits &&& 0x0000FFFF⟩) ∧
    (∀ q between r, q :: (between ++ [r]) <:+: p.course session → ∀ key, q.has key = true →
      q.Retains r key ∨ ∃ a b, [a, b] <:+: q :: (between ++ [r]) ∧ a.has key = true ∧
        ¬a.Retains b key ∧ Ends (session.flatMap Episode.calls) a b key) ∧
    ∀ (q : Plant) (key : String) (flags : LeafFlags),
      (q.setFlags key flags).answer =
          (if q.has key then .ok () else .error .noSuchLeaf) ∧
        (q.setFlags key flags).plant.leaves.map (fun leaf => leaf.flags.bits &&& 0xFFFF0000) =
          q.leaves.map fun leaf => leaf.flags.bits &&& 0xFFFF0000 := by
  refine ⟨⟨hp.admitsAll_masked.mpr hadm, hp.trace_masked hadm, hp.course_masked hadm⟩,
    ?_, ?_, ?_, ?_,
    fun q key flags => ⟨q.answer_setFlags key flags, q.marks_setFlags key flags⟩⟩
  · exact fun q _ key => q.reserved_flagsOf key
  · exact fun part hpart => ⟨p.met_mem_course session part hpart,
      hp.flagsIn_course hadm part hpart⟩
  · intro q r hnext key flags hgrants
    exact hgrants.flagsOf (hp.wellFormed_course hadm q (hnext.subset List.mem_cons_self))
  · exact fun q between r hstretch key hhas => hp.retains_or_ends_stretch hadm hstretch hhas

end Plant

end

namespace Plant

/-- A change of flags that asks for all bits of a word but the lowest two, and waits for an update.
Behind it waits a removal that has marked the root, whose flags are asked for. -/
theorem reserved_out_of_reach_waiting :
    let p := (((make 7 false).perform (.set "b" .int [.int 1])).plant.perform
      (.set "a" .int [.int 2])).plant
    let session : List Episode :=
      [.overlap (.set "a" .int [.int 3]) [.start (.setFlags "a" ⟨0xFFFFFFFC⟩),
        .start (.delete "b"), .now (.flagsOf "")], .alone (.delete "a")]
    p.Reachable ∧ p.AdmitsAll session ∧
      p.trace (session.map Episode.masked) = (p.trace session).masked ∧
      (∃ q ∈ p.course session, q.root.flags.contains .removing = true ∧
        (q.flagsOf "").bits &&& 0xFFFF0000 = 0) ∧
      ∃ q r, [q, r] <:+: p.course session ∧ q.Grants r "a" ⟨0xFFFFFFFC⟩ ∧
        r.leaves.map Leaf.marks = q.leaves.map Leaf.marks ∧ r.flagsOf "a" = ⟨0xFFFC⟩ := by
  intro p session
  have hp : p.Reachable := .call (.call (.make 7 false) _) _
  have hadm : p.AdmitsAll session := by decide
  obtain ⟨⟨-, htrace, -⟩, hreserved, hparts, hgrants, -⟩ := reserved_out_of_reach hp hadm
  obtain ⟨q, hq, hmarked⟩ : ∃ q ∈ p.course session, q.root.flags.contains .removing = true := by
    decide
  obtain ⟨part, hpart, hcall, hok⟩ : ∃ part ∈ (p.trace session).parts,
      part.call = .setFlags "a" ⟨0xFFFFFFFC⟩ ∧ part.answer = .unit (.ok ()) := by decide
  obtain ⟨a, b, hab, hgranted, hmarks⟩ := (hparts part hpart).2.granted _ _ hcall hok
  exact ⟨hp, hadm, htrace, ⟨q, hq, hmarked, hreserved q hq ""⟩, a, b, hab, hgranted,
    hmarks, (hgrants a b hab _ _ hgranted).2⟩

end Plant

end PlantStore
