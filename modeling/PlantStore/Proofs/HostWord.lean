import PlantStore.Proofs.Found
import PlantStore.Proofs.Overlap.Sequential
import PlantStore.Proofs.Protection.Overlap

/-! # The host's word in an overlap

The host's word of a leaf lies beside its values, under the same lock. A write of the word does not
wait for the lock: it is refused if somebody reads the values just then, and made otherwise. A write
of the values that is under way does not stand in its way, since it takes the lock only when it puts
its elements in place, and then it leaves the word as it is. So neither write is lost to the
other. -/

namespace PlantStore

section

variable [KeyHash]

/-- Whether a call stands on the values of the leaf of a name when it is stopped. -/
def Call.readsLeaf (p : Plant) (name : String) : Call → Bool
  | get key _ | getAll key => p.has key && leafName key == name
  | _ => false

omit [KeyHash] in
/-- Whether a call replaces the values or the host's word of the leaf of a name. -/
def Call.writes (name : String) : Call → Bool
  | set key .. | setHostWord key _ => leafName key == name
  | _ => false

namespace Plant

/-! ### One call -/

section

variable {p : Plant} (hp : p.WellFormed) {key : String} (hhas : p.has key = true)

include hp hhas

/-- On a leaf that is there, the host's word is stored. -/
theorem WellFormed.setHostWord_of_has (word : UInt64) :
    (p.setHostWord key word).answer = .ok () ∧
      (p.setHostWord key word).plant.FindsOnly key fun leaf => leaf.hostWord = word := by
  obtain ⟨leaf, hfind⟩ := has_eq_true_iff.mp hhas
  have hcontent := Leaf.isContent_hostWord word
  rw [Plant.setHostWord]
  rcases hp.change_cases key (fun leaf => { leaf with hostWord := word }) with
    ⟨hnone, -, -⟩ | ⟨-, -, ha, hplant⟩
  · rw [hfind] at hnone
    cases hnone
  · refine ⟨ha, ?_⟩
    rw [hplant]
    intro found hfound
    rw [hp.find?_alter _ hcontent, hfind] at hfound
    obtain rfl := Option.some.inj hfound
    rw [Leaf.alter_of_name (hp.find?_eq_some_iff.mp hfind).2.2]

/-- A leaf is there until a call takes it out. -/
theorem WellFormed.has_perform {call : Call} (hcall : ¬ call.Removes (leafName key)) :
    (p.perform call).plant.has key = true := by
  have halter (name : String) {f : Leaf → Leaf} (hf : Leaf.IsContent f) :
      (p.alter name f).has key = true := by
    rw [has, hp.find?_alter name hf, Option.isSome_map]
    exact hhas
  have hchange (other : String) {f : Leaf → Leaf} (hf : Leaf.IsContent f) :
      (p.change other f).plant.has key = true := by
    rcases hp.change_cases other f with ⟨-, -, hplant⟩ | ⟨leaf, -, -, hplant⟩
    · rw [hplant]
      exact hhas
    · rw [hplant]
      exact halter _ hf
  cases call with
  | set other seed values =>
      have hafter := hp.set other seed values
      show (p.set other seed values).plant.has key = true
      rcases hp.set_cases other seed values with ⟨e, -, hplant⟩ | ⟨-, elements, -, -, -, hplant⟩ |
          ⟨elements, -, hd, -, -, hplant⟩
      · rw [hplant]
        exact hhas
      · rw [hplant]
        exact halter _ (Leaf.isContent_elements elements)
      · rw [hplant] at hafter ⊢
        rw [has, hp.find?_link hd hafter.toSearchable]
        split
        · rfl
        · exact hhas
  | setFlags other flags => exact hchange other (Leaf.isContent_flags flags)
  | setHostWord other word => exact hchange other (Leaf.isContent_hostWord word)
  | delete other =>
      show (p.delete other).plant.has key = true
      rcases hp.delete_cases other with ⟨e, -, hplant⟩ | ⟨leaf, -, hroot, -, -, hplant⟩
      · rw [hplant]
        exact hhas
      · rw [hplant, has, hp.find?_without hroot, if_neg fun hsame => hcall hsame.symm]
        exact hhas
  | free => exact absurd trivial hcall
  | _ => exact hhas

end

end Plant

namespace Overlap

/-! ### A write of the word while a call is stopped -/

/-- Only a read holds the lock of the values of a leaf when it is stopped, and that of its own. -/
theorem readsValue_begun {p : Plant} (hp : p.Searchable) {hold : Call}
    (hstop : (Stopped.of? p hold).isSome = true) (name : String) :
    (begun p hold).stopped.readsValue name = hold.readsLeaf p name := by
  obtain ⟨s, hs⟩ := Option.isSome_iff_exists.mp hstop
  have hread {key : String} {leaf : Leaf} (answer : Answer) (hfind : p.find? key = some leaf) :
      (Stopped.reading leaf.name answer).readsValue name =
        (p.has key && leafName key == name) := by
    rw [Plant.has, hfind, ← (hp.find?_eq_some_iff.mp hfind).2.2]
    rfl
  rw [begun_eq hs]
  show s.readsValue name = hold.readsLeaf p name
  -- An update has passed its checks without the value lock, and a listing stands on no value.
  cases hold with
  | get key index =>
      obtain ⟨leaf, hfind, rfl⟩ := Stopped.ofRead?_eq_some hs
      exact hread _ hfind
  | getAll key =>
      obtain ⟨leaf, hfind, rfl⟩ := Stopped.ofRead?_eq_some hs
      exact hread _ hfind
  | keys =>
      obtain rfl := Stopped.of?_keys hs
      rfl
  | set key seed values =>
      cases hfind : p.find? key with
      | some leaf =>
          obtain ⟨-, rfl⟩ := Stopped.ofSet?_of_find?_some hfind hs
          rfl
      | none =>
          obtain rfl := Stopped.ofSet?_of_find?_none hfind hs
          rfl
  | _ => cases hs

/-- What is asked of the leaf of a key is asked of its name. -/
theorem ofLeaf_of_has {o : Overlap} (hs : o.plant.unmark.Searchable) {key : String}
    (hhas : o.plant.has key = true) (property : String → Bool) :
    o.ofLeaf key property = property (leafName key) := by
  rw [← Plant.has_unmark] at hhas
  obtain ⟨leaf, hfind⟩ := Plant.has_eq_true_iff.mp hhas
  rw [← ofLeaf_unmark, ofLeaf, plant_unmark, hfind]
  exact congrArg property (hs.find?_eq_some_iff.mp hfind).2.2

/-- What a write of the host's word of a leaf comes to that is made while a call is stopped. -/
structure StoresWord (p : Plant) (hold : Call) (key : String) (word : UInt64) (before : Plant)
    (outcome : Outcome Answer) : Prop where
  refused_iff : outcome.answer = .unit (.error .concurrency) ↔
    hold.readsLeaf p (leafName key) = true
  refused : hold.readsLeaf p (leafName key) = true → outcome.plant = before
  stored : hold.readsLeaf p (leafName key) = false → outcome.answer = .unit (.ok ()) ∧
    outcome.plant = (before.setHostWord key word).plant ∧ outcome.plant.hostWordOf key = .ok word

theorem hostWordOf_eq_ok_iff {q : Plant} {key : String} {word : UInt64}
    (hhas : q.has key = true) :
    q.hostWordOf key = .ok word ↔ q.FindsOnly key fun leaf => leaf.hostWord = word := by
  obtain ⟨leaf, hfind⟩ := Plant.has_eq_true_iff.mp hhas
  rw [Plant.hostWordOf, Plant.ask_of_find?_some hfind]
  constructor
  · intro hword found hfound
    rw [hfind] at hfound
    obtain rfl := Option.some.inj hfound
    exact Except.ok.inj hword
  · intro h
    rw [h leaf hfind]

section

variable {start : Plant} {hold : Call} {asked : List (Call × Plant)} {o : Overlap}
  (h : o.Sound start hold asked)

include h

/-- The mark of a waiting removal plays no part for the word. -/
theorem Sound.setHostWord_of_has {key : String} (hhas : o.plant.has key = true) (word : UInt64) :
    (o.plant.setHostWord key word).answer = .ok () ∧
      (o.plant.setHostWord key word).plant.hostWordOf key = .ok word := by
  have hhas' : o.plant.unmark.has key = true := (o.plant.has_unmark key).trans hhas
  obtain ⟨ha, hfinds⟩ := h.wellFormed.setHostWord_of_has hhas' word
  have hnot : ¬ (Call.setHostWord key word).Removes (leafName key) := id
  have hkept := h.wellFormed.has_perform hhas' hnot
  rw [show (o.plant.unmark.perform (.setHostWord key word)).plant =
    (o.plant.unmark.setHostWord key word).plant from rfl] at hkept
  have hword := (hostWordOf_eq_ok_iff hkept).mpr hfinds
  rw [o.plant.setHostWord_unmark] at ha hword
  refine ⟨ha, ?_⟩
  rw [← Plant.hostWordOf_unmark]
  exact hword

/-- A write of the word is refused for the lock, or it does what it does by itself. -/
theorem Sound.storesWord (hstart : start.Searchable)
    (hstop : (Stopped.of? start hold).isSome = true)
    (hstopped : o.stopped = (begun start hold).stopped) {key : String}
    (hhas : o.plant.has key = true) (word : UInt64) :
    StoresWord start hold key word o.plant (o.answerNow (.setHostWord key word)) := by
  have hlock : (o.ofLeaf key fun name => o.stopped.readsValue name) =
      hold.readsLeaf start (leafName key) := by
    rw [ofLeaf_of_has h.wellFormed.toSearchable hhas, hstopped, readsValue_begun hstart hstop]
  cases hreads : hold.readsLeaf start (leafName key) with
  | true =>
      have hanswer : o.answerNow (.setHostWord key word) =
          ⟨.unit (.error .concurrency), o.plant, []⟩ := if_pos (hlock.trans hreads)
      rw [hanswer]
      exact ⟨⟨fun _ => hreads, fun _ => rfl⟩, fun _ => rfl, fun hfree => by
        rw [hreads] at hfree
        cases hfree⟩
  | false =>
      have hanswer :
          o.answerNow (.setHostWord key word) = o.plant.perform (.setHostWord key word) :=
        if_neg (Bool.eq_false_iff.mp (hlock.trans hreads))
      obtain ⟨hok, hstored⟩ := h.setHostWord_of_has hhas word
      rw [hanswer]
      refine ⟨⟨fun hconflict => ?_, fun hread => ?_⟩, fun hread => ?_, fun _ => ?_⟩
      · rw [show (o.plant.perform (.setHostWord key word)).answer = .unit (.ok ()) from
          congrArg Answer.unit hok] at hconflict
        cases hconflict
      · rw [hreads] at hread
        cases hread
      · rw [hreads] at hread
        cases hread
      · exact ⟨congrArg Answer.unit hok, rfl, hstored⟩

end

/-! ### A write of the values that is under way -/

section

variable {start : Plant} {hold : Call} {key : String} {seed : Seed} {values : List Value}
  {word : UInt64}

/-- The leaf that an update stands on is there. -/
theorem Sound.has_of_updating {asked : List (Call × Plant)} {o : Overlap}
    (h : o.Sound start hold asked) (hstopped : o.stopped = .updating (leafName key) seed values) :
    o.plant.unmark.has key = true := by
  have hholds := h.holds
  rw [hstopped] at hholds
  generalize hname : leafName key = name at hholds
  cases hholds with
  | @updating other _ _ leaf hfind hseed =>
      rw [← h.wellFormed.has_leafName, hname, h.wellFormed.has_leafName]
      exact Plant.has_eq_true_iff.mpr ⟨leaf, hfind⟩

/-- The host's word stays what it is while a write of the values is stopped, unless another word is
stored. -/
theorem Sound.keepsWord {asked : List (Call × Plant)} {o : Overlap}
    (h : o.Sound start hold asked) (hstopped : o.stopped = .updating (leafName key) seed values)
    (hword : o.plant.unmark.FindsOnly key fun leaf => leaf.hostWord = word) {script : List Step}
    (hfeasible : o.isFeasible script = true)
    (hothers : ∀ part ∈ o.ordinaryParts script (o.steps script).2, part.answer = .unit (.ok ()) →
      part.call.writes (leafName key) = false) :
    (o.steps script).1.plant.unmark.FindsOnly key fun leaf => leaf.hostWord = word := by
  replace hfeasible := feasible_of_isFeasible hfeasible
  -- That the leaf is still there at every step comes from soundness.
  induction hfeasible generalizing asked with
  | nil => exact hword
  | @now o call rest hfree hrest ih =>
      obtain ⟨hnow, hlater⟩ := List.forall_mem_cons.mp hothers
      refine ih (h.now hfree) hstopped ?_ hlater
      show (o.answerNow call).plant.unmark.FindsOnly key fun leaf => leaf.hostWord = word
      rcases o.answerNow_cases call with ⟨-, hstill⟩ | ⟨-, hperform⟩
      · rw [hstill]
        exact hword
      · rw [hperform, ← Plant.plant_perform_unmark]
        refine hword.perform h.wellFormed (h.has_of_updating hstopped) (fun _ _ hleaf => hleaf)
          (fun _ _ hleaf => hleaf) ?_
        rintro other word' rfl hsame hok
        rw [Plant.answer_perform_unmark _ (fun hcall => by cases hcall), ← hperform] at hok
        exact beq_eq_false_iff_ne.mp (hnow hok) hsame
  | @start o call rest w hw hrest ih =>
      have hstopped' : (o.start call).stopped = .updating (leafName key) seed values := by
        rw [Overlap.start, hw]
        exact hstopped
      refine ih (h.started hw) hstopped' ?_ hothers
      show (o.start call).plant.unmark.FindsOnly key fun leaf => leaf.hostWord = word
      rw [plant_start_unmark hw]
      exact hword

end

/-- A write of a leaf that is answered with success has put its values there, and has left the
host's word as it was. -/
theorem findsOnly_updateNow {q : Plant} (hq : q.WellFormed) {key : String} {seed : Seed}
    {values : List Value} {word : UInt64}
    (hword : q.FindsOnly key fun leaf => leaf.hostWord = word)
    (hok : (q.updateNow (leafName key) seed values).answer = .ok ()) :
    (q.updateNow (leafName key) seed values).plant.FindsOnly key fun leaf =>
      leaf.hostWord = word ∧ leaf.values = .ok values := by
  rcases hq.updateNow_cases (leafName key) seed values with ⟨e, ha, -⟩ |
      ⟨leaf, elements, hfind, hr, -, hplant⟩
  · rw [ha] at hok
    cases hok
  · obtain ⟨hseed, -, -, hencode⟩ := Plant.renewal_eq_ok hr
    obtain ⟨-, hfit, rfl⟩ := Element.encodeAll_eq_ok_iff.mp hencode
    rw [hq.find?_leafName] at hfind
    rw [hplant, leafName_leafName]
    intro found hfound
    rw [hq.find?_alter _ (Leaf.isContent_elements _), hfind] at hfound
    obtain rfl := Option.some.inj hfound
    rw [Leaf.alter_of_name (hq.find?_eq_some_iff.mp hfind).2.2]
    refine ⟨hword leaf hfind, ?_⟩
    rw [Leaf.values, hseed]
    exact Element.decodeAll_map_ofValue hfit

/-- At their turns, calls of which none is answered with success as a write of a leaf leave what is
in the leaf as it is. -/
theorem findsOnly_turns (seen : Plant) {p : Plant} (hp : p.WellFormed) {key : String}
    {kind : Leaf → Prop} (h : p.FindsOnly key kind)
    (hflags : ∀ leaf flags, kind leaf →
      kind { leaf with flags := leaf.flags.replaceVisible flags })
    {served : List (Waiting × Call × Plant)}
    (hserves : ∀ entry ∈ served, ∃ r : Plant, r.Searchable ∧ r.has key = true ∧
      entry.1.Serves entry.2.2 r entry.2.1)
    (hothers : ∀ part ∈ (servedParts seen p served).map Prod.snd, part.answer = .unit (.ok ()) →
      part.call.writes (leafName key) = false) :
    (serve seen p ((served.map Prod.fst).map .waiting)).2.FindsOnly key kind := by
  induction served generalizing p with
  | nil => exact h
  | cons entry rest ih =>
      obtain ⟨w, call, met⟩ := entry
      refine ih (wellFormed_finish_waiting seen hp w) ?_
        (fun later hlater => hserves later (List.mem_cons_of_mem _ hlater))
        (fun part hpart => hothers part (List.mem_cons_of_mem _ hpart))
      obtain ⟨r, hs, hhas, hw⟩ := hserves _ List.mem_cons_self
      refine h.finish seen hp hflags ?_ ?_
      · rintro other seed values rfl hsame
        -- It has found no leaf where the leaf of the key is.
        cases hw with
        | inserting hfind =>
            rw [← hs.find?_leafName, hsame, hs.find?_leafName, ← Plant.has_eq_false_iff,
              hhas] at hfind
            cases hfind
      · rintro name seed values rfl hsame hok
        cases hw with
        | updating =>
            rw [leafName_leafName] at hsame
            exact absurd hsame (beq_eq_false_iff_ne.mp (hothers _ List.mem_cons_self hok))

/-! ### The leaf is still there -/

omit [KeyHash] in
theorem not_removes_of_canStop {hold : Call} (h : hold.canStop = true) (name : String) :
    ¬ hold.Removes name := by
  cases hold with
  | delete key => cases h
  | free => cases h
  | _ => exact id

/-- Every call of an overlap is the one that is stopped, or one of the script. -/
theorem call_of_mem_parts {p : Plant} {hold : Call} {script : List Step} :
    ∀ part ∈ parts p hold script, part.call = hold ∨ ∃ s ∈ script, s.call = part.call := by
  intro part hpart
  rcases List.mem_cons.mp hpart with rfl | hpart
  · exact .inl rfl
  rcases List.mem_append.mp hpart with hordinary | hstarted
  · exact .inr ⟨_, now_mem_of_mem_ordinaryParts part hordinary, rfl⟩
  · exact .inr ⟨_, start_mem_of_mem_asked _ (met_of_mem_startedParts part hstarted), rfl⟩

/-- A leaf that no call of an overlap would remove is there afterwards. -/
theorem has_run {p : Plant} (hp : p.WellFormed) {hold : Call} {script : List Step}
    (hadm : Admissible p hold script) {key : String} (hhas : p.has key = true)
    (hscript : ∀ s ∈ script, ¬ s.call.Removes (leafName key)) :
    (run p hold script).plant.has key = true := by
  have hfree : ∀ ask ∈ (begun p hold).asked script, ask.1 ≠ .free := by
    rintro ⟨call, met⟩ hask rfl
    exact hscript _ (start_mem_of_mem_asked _ hask) trivial
  obtain ⟨order, hperm, -, hserial⟩ := serializable_run hp hadm hfree
  have hcalls : ∀ part ∈ order, ¬ part.call.Removes (leafName key) := by
    intro part hpart
    rcases call_of_mem_parts part (hperm.subset hpart) with hcall | ⟨s, hs, hcall⟩
    · rw [hcall]
      exact not_removes_of_canStop hadm.canStop _
    · rw [← hcall]
      exact hscript s hs
  -- No call of the serial order takes the leaf out.
  have hkeep : ∀ part ∈ order, ∀ met : Plant, met.WellFormed ∧ met.has key = true →
      (met.perform part.call).plant.WellFormed ∧ (met.perform part.call).plant.has key = true :=
    fun part hpart met hmet => ⟨hmet.1.perform _, hmet.1.has_perform hmet.2 (hcalls part hpart)⟩
  exact (@Serial.keeps _ _ (fun q => q.WellFormed ∧ q.has key = true) _ _ _ hserial
    ⟨hp, hhas⟩ hkeep).2

/-! ### Both writes are found -/

/-- A write is stopped on its leaf if that is there. -/
theorem updating_begun {p : Plant} (hp : p.WellFormed) {other key : String} {seed : Seed}
    {values : List Value} (hstop : (Stopped.of? p (.set other seed values)).isSome = true)
    (hkey : leafName other = leafName key) (hhas : p.has key = true) :
    (begun p (.set other seed values)).stopped = .updating (leafName key) seed values := by
  obtain ⟨s, hs⟩ := Option.isSome_iff_exists.mp hstop
  obtain ⟨leaf, hfind⟩ := Plant.has_eq_true_iff.mp hhas
  have hfind' : p.find? other = some leaf := by
    rw [← hp.find?_leafName, hkey, hp.find?_leafName, hfind]
  obtain ⟨-, rfl⟩ := Stopped.ofSet?_of_find?_some hfind' hs
  rw [begun_eq hs, (hp.find?_eq_some_iff.mp hfind).2.2]

/-- The stopped write puts its values beside the word that it finds, and the calls that have waited
leave both, unless one of them writes to the leaf. -/
theorem Sound.finish_updating {start : Plant} {hold : Call} {asked : List (Call × Plant)}
    {o : Overlap} (h : o.Sound start hold asked) {key : String} {seed : Seed} {values : List Value}
    {word : UInt64} (hstopped : o.stopped = .updating (leafName key) seed values)
    (hword : o.plant.unmark.FindsOnly key fun leaf => leaf.hostWord = word)
    (during : List (Option Answer)) (hok : (o.finish during).stopped = .unit (.ok ()))
    (hothers : ∀ part ∈ startedParts asked (o.finish during).started,
      part.answer = .unit (.ok ()) → part.call.writes (leafName key) = false) :
    (o.finish during).plant.FindsOnly key fun leaf =>
      leaf.hostWord = word ∧ leaf.values = .ok values := by
  obtain ⟨hfst, hserved⟩ := h.turns_served
  have hhas := h.has_of_updating hstopped
  -- The stopped call reads no value, so no update waits for it to put its elements in place.
  have hnone : ∀ w ∈ o.waiting, ∀ name, w.publishes name = false := by
    intro w hw name
    refine Bool.eq_false_iff.mpr fun hpublishes => ?_
    have hreads := h.reads name (List.any_eq_true.mpr ⟨w, hw, hpublishes⟩)
    rw [hstopped] at hreads
    cases hreads
  have hpublished : o.waiting.foldl Waiting.publish (o.stopped.finish o.plant.unmark).2 =
      (o.plant.unmark.updateNow (leafName key) seed values).plant := by
    rw [hstopped]
    exact publish_all_eq_self hnone _
  have hparts := h.startedParts_turns during
  have hplant := h.plant_finish during
  rw [hpublished] at hparts hplant
  have hanswer : (o.finish during).stopped =
      .unit (o.plant.unmark.updateNow (leafName key) seed values).answer := by
    rw [h.finish_eq, hstopped]
    rfl
  rw [hanswer] at hok
  have hdone := findsOnly_updateNow h.wellFormed hword (Answer.unit.inj hok)
  have hturns := findsOnly_turns _ (h.wellFormed.updateNow (leafName key) seed values) hdone
    (fun _ _ hleaf => hleaf)
    (fun entry hentry => ⟨_, h.wellFormed.toSearchable, hhas, (hserved entry hentry).2.2⟩)
    (fun part hpart => hothers part (hparts.symm.subset hpart))
  rw [hfst] at hturns
  rw [hplant]
  exact hturns

/-- A write of the values of a leaf, stopped in it, and a write of its host's word that is made
meanwhile are both found in the leaf in the end, unless another write has been accepted later. -/
theorem Sound.stores_both {start : Plant} {hold : Call} {asked : List (Call × Plant)}
    {o : Overlap} (h : o.Sound start hold asked) {key : String} {seed : Seed} {values : List Value}
    {word : UInt64} {after : List Step}
    (hstopped : o.stopped = .updating (leafName key) seed values)
    (hstored : (o.answerNow (.setHostWord key word)).plant.hostWordOf key = .ok word)
    (hfeasible : o.isFeasible (.now (.setHostWord key word) :: after) = true)
    (during : List (Option Answer))
    (hok : ((o.steps (.now (.setHostWord key word) :: after)).1.finish during).stopped =
      .unit (.ok ()))
    (hothers : ∀ part ∈
        (o.step (.now (.setHostWord key word))).1.ordinaryParts after
          ((o.step (.now (.setHostWord key word))).1.steps after).2 ++
        startedParts (asked ++ o.asked (.now (.setHostWord key word) :: after))
          ((o.steps (.now (.setHostWord key word) :: after)).1.finish during).started,
      part.answer = .unit (.ok ()) → part.call.writes (leafName key) = false) :
    ((o.steps (.now (.setHostWord key word) :: after)).1.finish during).plant.FindsOnly key
      fun leaf => leaf.hostWord = word ∧ leaf.values = .ok values := by
  have hlast := h.steps hfeasible
  have hsuits := hfeasible
  rw [isFeasible, Bool.and_eq_true] at hsuits
  have hfree : o.wait? (.setHostWord key word) = none := Option.isNone_iff_eq_none.mp hsuits.1
  have hnext := h.now hfree
  have hhas := hnext.has_of_updating hstopped
  rw [← Plant.hostWordOf_unmark] at hstored
  have hword := (hostWordOf_eq_ok_iff hhas).mp hstored
  have hkept := hnext.keepsWord hstopped hword hsuits.2
    fun part hpart => hothers part (List.mem_append_left _ hpart)
  exact hlast.finish_updating ((stopped_steps _ _).trans hstopped) hkept during hok
    fun part hpart => hothers part (List.mem_append_right _ hpart)

end Overlap

/-! ### No call is stopped -/

namespace Plant

/-- No call that is made by itself is refused for a lock, however many others have been made before,
and the host's word of every leaf that is there can be read and written. -/
def Unlocked (p : Plant) : Prop :=
  ∀ calls, (∀ outcome ∈ (p.run calls).2, outcome.answer.refusal? ≠ some .concurrency) ∧
    ∀ key, (p.run calls).1.has key = true →
      (∃ word, (p.run calls).1.hostWordOf key = .ok word) ∧
      ∀ word, ((p.run calls).1.setHostWord key word).answer = .ok ()

theorem WellFormed.unlocked {p : Plant} (hp : p.WellFormed) : p.Unlocked := by
  intro calls
  induction calls generalizing p with
  | nil =>
      refine ⟨fun outcome houtcome => (List.not_mem_nil houtcome).elim, fun key hhas => ⟨?_, ?_⟩⟩
      · obtain ⟨leaf, hfind⟩ := has_eq_true_iff.mp hhas
        exact ⟨leaf.hostWord, ask_of_find?_some hfind _⟩
      · exact fun word => (hp.setHostWord_of_has hhas word).1
  | cons call calls ih =>
      obtain ⟨hanswers, hlast⟩ := ih (hp.perform call)
      refine ⟨fun outcome houtcome => ?_, hlast⟩
      rcases List.mem_cons.mp houtcome with rfl | hlater
      · exact p.perform_not_locked call
      · exact hanswers outcome hlater

end Plant

namespace Overlap

/-! ### The theorem -/

/-- The host's word in an overlap. A write of the word of a leaf that is there is refused for the
lock, and changes nothing, exactly if the stopped call reads the values of that leaf, and is made
otherwise. A write of the values of the same leaf that is stopped meanwhile does not lose it, nor is
it lost: unless a later write is accepted or the leaf is removed, both are found there in the end.
With no call stopped, no call is refused for a lock, and the word of every leaf can be read and
written. -/
theorem host_word_under_overlap {p : Plant} (hp : p.Reachable) :
    p.Unlocked ∧
    ∀ hold before after key word,
      Admissible p hold (before ++ .now (.setHostWord key word) :: after) →
      let script := before ++ .now (.setHostWord key word) :: after
      let o := ((begun p hold).steps before).1
      let next := (o.step (.now (.setHostWord key word))).1
      let report := run p hold script
      report.during[before.length]? = some (some (o.answerNow (.setHostWord key word)).answer) ∧
      (o.plant.has key = true →
        StoresWord p hold key word o.plant (o.answerNow (.setHostWord key word))) ∧
      (∀ other seed values, hold = .set other seed values → leafName other = leafName key →
        p.has key = true → report.stopped = .unit (.ok ()) →
        (∀ part ∈ next.ordinaryParts after (next.steps after).2 ++
            startedParts ((begun p hold).asked script) report.started,
          part.answer = .unit (.ok ()) → part.call.writes (leafName key) = false) →
        (∀ s ∈ script, ¬ s.call.Removes (leafName key)) ∨ report.plant.has key = true →
        report.plant.hostWordOf key = .ok word ∧ report.plant.getAll key = .ok values) ∧
      report.plant.Unlocked := by
  have hwf := hp.wellFormed
  refine ⟨hwf.unlocked, fun hold before after key word hadm => ?_⟩
  intro script o next report
  have hfeasible := hadm.2
  rw [isFeasible_append, Bool.and_eq_true] at hfeasible
  obtain ⟨hbefore, hnow⟩ := hfeasible
  have hsound : o.Sound p hold ((begun p hold).asked before) :=
    (begun_sound hwf hadm.1).steps hbefore
  have hstill : o.stopped = (begun p hold).stopped := stopped_steps _ before
  have hstores (hhas : o.plant.has key = true) :=
    hsound.storesWord hwf.toSearchable hadm.1 hstill hhas word
  refine ⟨?_, hstores, ?_, (wellFormed_run hwf hadm).unlocked⟩
  · show ((begun p hold).steps script).2[before.length]? = _
    rw [steps_append, List.getElem?_append_right (Nat.le_of_eq (length_steps _ before)),
      length_steps, Nat.sub_self]
    rfl
  · rintro other seed values rfl hkey hhas hok hothers hleft
    have hstopped := hstill.trans (updating_begun hwf hadm.1 hkey hhas)
    have hlive : o.plant.has key = true := by
      rw [← Plant.has_unmark]
      exact hsound.has_of_updating hstopped
    have hword := ((hstores hlive).stored rfl).2.2
    -- The script is played to the word and from there to its end.
    have hlast : ((begun p (.set other seed values)).steps script).1 =
        (o.steps (.now (.setHostWord key word) :: after)).1 := by
      rw [steps_append]
    have hrun : report = (o.steps (.now (.setHostWord key word) :: after)).1.finish
        ((begun p (.set other seed values)).steps script).2 :=
      congrArg (fun last : Overlap => last.finish _) hlast
    have hasked : (begun p (.set other seed values)).asked script =
        (begun p (.set other seed values)).asked before ++
          o.asked (.now (.setHostWord key word) :: after) := asked_append ..
    rw [hrun] at hok hothers
    rw [hasked] at hothers
    have hboth := hsound.stores_both hstopped hword hnow _ hok hothers
    rw [← hrun] at hboth
    have hleft' : report.plant.has key = true := hleft.elim (has_run hwf hadm hhas) id
    refine ⟨(hostWordOf_eq_ok_iff hleft').mpr fun leaf hfind => (hboth leaf hfind).1, ?_⟩
    obtain ⟨leaf, hfind⟩ := Plant.has_eq_true_iff.mp hleft'
    rw [Plant.getAll, Plant.ask_of_find?_some hfind]
    exact (hboth leaf hfind).2

end Overlap

end

/-- The word of the root is refused while the root is read under its other name. A word that is
stored while a write stands in the leaf is found beside the values of the write, although a removal
of the leaf has waited behind it: the leaf is protected before that removal has its turn. -/
theorem Overlap.host_word_under_overlap_of_both :
    let p := ((Plant.make 7 false).run [.set "a" .int [.int 1], .set "b" .int [.int 2]]).1
    let others : List Step :=
      [.start (.delete "a"), .start (.delete "b"), .start (.setFlags "b" .undeletable)]
    let script : List Step := .now (.setHostWord "b" 9) :: others
    p.Reachable ∧
      Overlap.Admissible p (.getAll "") [.now (.setHostWord "type" 9)] ∧
      (Overlap.run p (.getAll "") [.now (.setHostWord "type" 9)]).during =
        [some (.unit (.error .concurrency))] ∧
      Overlap.Admissible p (.set "b" .int [.int 5]) script ∧
      (Overlap.run p (.set "b" .int [.int 5]) script).started =
        [.unit (.ok ()), .unit (.error .undeletable), .unit (.ok ())] ∧
      (Overlap.run p (.set "b" .int [.int 5]) script).plant.hostWordOf "b" = .ok 9 ∧
      (Overlap.run p (.set "b" .int [.int 5]) script).plant.getAll "b" = .ok [.int 5] := by
  intro p others script
  have hp : p.Reachable := .call (.call (.make 7 false) _) _
  have hread : Overlap.Admissible p (.getAll "") [.now (.setHostWord "type" 9)] := by decide
  have hset : Overlap.Admissible p (.set "b" .int [.int 5]) script := by decide
  obtain ⟨-, hoverlap⟩ := Overlap.host_word_under_overlap hp
  obtain ⟨hduring, hstores, -, -⟩ := hoverlap (.getAll "") [] [] "type" 9 hread
  have hrefused := (hstores (by decide)).refused_iff.mpr (by decide)
  have hlocked : (Overlap.run p (.getAll "") [.now (.setHostWord "type" 9)]).during =
      [some (.unit (.error .concurrency))] := by
    rw [← hrefused]
    rfl
  obtain ⟨-, -, hboth, -⟩ := hoverlap (.set "b" .int [.int 5]) [] others "b" 9 hset
  have hstarted : (Overlap.run p (.set "b" .int [.int 5]) script).started =
      [.unit (.ok ()), .unit (.error .undeletable), .unit (.ok ())] := by decide
  -- The script asks for the removal of the leaf, but the leaf is there in the end.
  obtain ⟨hword, hvalues⟩ := hboth "b" .int [.int 5] rfl rfl (by decide) (by decide) (by decide)
    (.inr (by decide))
  exact ⟨hp, hread, hlocked, hset, hstarted, hword, hvalues⟩

end PlantStore
