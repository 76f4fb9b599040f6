import PlantStore.Proofs.Overlap.Finish
import PlantStore.Proofs.Refusals

/-! # Refused calls leave no trace

A call that is refused has changed nothing, at whatever point it failed; only a `free` may have
taken out leaves before it came to one that has to stay. Questions change nothing whatever they
are answered. So a run comes to the same without the calls that were refused and without its
questions. -/

namespace PlantStore

/-- Whether a call only asks. -/
def Call.isQuestion : Call → Bool
  | set .. | setFlags .. | setHostWord .. | delete _ | free => false
  | get .. | getAs .. | getAll _ | probe .. | numElements _ | elementSize .. | seedOf _
  | flagsOf _ | hostWordOf _ | has _ | keys | length | isEmpty | isDefunct | isDebug | type
  | views | exported _ | describe => true

/-- Whether a call may have changed the plant, told by its answer. -/
def Call.mayChange (answer : Answer) : Call → Bool
  | free => true
  | call => !call.isQuestion && answer.refusal?.isNone

/-- The plant is as it was, but for leaves of the chain that may be removed and are gone. -/
structure Plant.Spares (p q : Plant) : Prop where
  root : q.root = p.root
  isDebug : q.isDebug = p.isDebug
  chain : q.chain.Sublist p.chain
  undeletable : ∀ leaf ∈ p.chain, leaf.isUndeletable = true → leaf ∈ q.chain

/-- If the call was refused, the plant is exactly as it was, except that a `free` that was not
refused for the root has taken out all leaves of the chain that may go. -/
def Outcome.IsAtomic (o : Outcome Answer) (p : Plant) (call : Call) : Prop :=
  ∀ e, o.answer.refusal? = some e →
    o.plant = p ∨
      call = .free ∧ e = .undeletable ∧ p.root.isUndeletable = false ∧
        o.plant = { p with chain := p.chain.filter Leaf.isUndeletable }

theorem Plant.spares_sweep (p : Plant) (start : Nat) : p.Spares (p.sweep start) :=
  ⟨rfl, rfl, p.sweep_sublist start, fun _ hleaf hu => mem_sweep hleaf hu start⟩

/-- A refusal of a call that answers with nothing else. -/
theorem Answer.refusal?_unit {result : Result Unit} {e : StoreError} :
    (Answer.unit result).refusal? = some e ↔ result = .error e := by
  cases result with
  | ok _ =>
      constructor
      · intro h
        cases h
      · intro h
        cases h
  | error other =>
      show some other = some e ↔ _
      rw [Option.some_inj, Except.error.injEq]

namespace Plant

/-! ### Removing -/

theorem removeAt_refused {p : Plant} {index : Nat} {e : StoreError}
    (h : (p.removeAt index).answer = .error e) : (p.removeAt index).plant = p := by
  rcases p.removeAt_cases index with ⟨-, -, hp⟩ | ⟨leaf, -, -, hok, -⟩
  · exact hp
  · rw [hok] at h
    cases h

variable [KeyHash]

section

variable {p : Plant} {e : StoreError}

theorem deleteAfterWait_refused {key : String} (h : (p.deleteAfterWait key).answer = .error e) :
    (p.deleteAfterWait key).plant = p := by
  rw [deleteAfterWait] at h ⊢
  cases hindex : p.chainIndex? key with
  | none => rfl
  | some index =>
      rw [hindex, reportDeleted_answer] at h
      rw [reportDeleted_plant]
      exact removeAt_refused h

theorem delete_refused {key : String} (h : (p.delete key).answer = .error e) :
    (p.delete key).plant = p := by
  rw [delete] at h ⊢
  cases hplace : p.place? key with
  | none => rfl
  | some place =>
      cases place with
      | root => rfl
      | link index =>
          rw [hplace] at h
          simp only [reportDeleted_answer] at h
          simp only [reportDeleted_plant]
          exact removeAt_refused h

/-- A sweep that is refused has spared the root and the leaves that have to stay. -/
theorem freeFrom_refused {start : Nat} (h : (p.freeFrom start).answer = .error e) :
    e = .undeletable ∧ (p.freeFrom start).plant = p.sweep start := by
  rcases p.freeFrom_cases start with ⟨-, ha, hp⟩ | ⟨-, -, ha, hp⟩ | ⟨-, -, ha, -⟩
  · rw [ha] at h
    exact ⟨(Except.error.inj h).symm, hp⟩
  · rw [ha] at h
    exact ⟨(Except.error.inj h).symm, hp⟩
  · rw [ha] at h
    cases h

theorem freeAfterWait_refused (h : p.freeAfterWait.answer = .error e) :
    p.freeAfterWait.plant = p ∨
      p.isDefunct = false ∧ e = .undeletable ∧ p.freeAfterWait.plant = p.sweep 0 := by
  rcases p.freeAfterWait_cases with ⟨-, -, hp⟩ | ⟨hd, hfree⟩
  · exact .inl hp
  · rw [hfree] at h ⊢
    exact .inr ⟨hd, freeFrom_refused h⟩

theorem free_refused (h : p.free.answer = .error e) :
    p.free.plant = p ∨
      p.root.isUndeletable = false ∧ p.isDefunct = false ∧ e = .undeletable ∧
        p.free.plant = p.sweep 0 := by
  rcases p.free_cases with ⟨-, -, hp⟩ | ⟨-, -, -, hp⟩ | ⟨hu, hd, hfree⟩
  · exact .inl hp
  · exact .inl hp
  · rw [hfree] at h ⊢
    exact .inr ⟨hu, hd, freeFrom_refused h⟩

/-! ### Writing -/

theorem set_refused {key : String} {seed : Seed} {values : List Value}
    (h : (p.set key seed values).answer = .error e) : (p.set key seed values).plant = p := by
  rw [set] at h ⊢
  cases hstore : p.store key seed values with
  | error e => rfl
  | ok stored =>
      rw [hstore] at h
      cases h

theorem updateNow_refused {key : String} {seed : Seed} {values : List Value}
    (h : (p.updateNow key seed values).answer = .error e) :
    (p.updateNow key seed values).plant = p := by
  rw [updateNow] at h ⊢
  cases hupdate : p.update key seed values with
  | error e => rfl
  | ok after =>
      rw [hupdate] at h
      cases h

theorem change_refused {key : String} {f : Leaf → Leaf}
    (h : (p.change key f).answer = .error e) : (p.change key f).plant = p := by
  rw [change] at h ⊢
  cases hhas : p.has key with
  | false => rfl
  | true =>
      rw [hhas] at h
      cases h

/-- A write has taken effect only if all values fit. -/
theorem fits_of_set {key : String} {seed : Seed} {values : List Value}
    (h : (p.set key seed values).answer = .ok ()) : ∀ v ∈ values, v.fits seed = true := by
  -- Whichever way a write goes, it encodes its values before it changes anything.
  have hencode : ∃ elements, Element.encodeAll seed values = .ok elements := by
    cases hd : p.isDefunct with
    | true =>
        rw [(set_of_isDefunct hd key seed values).1] at h
        cases h
    | false =>
        cases hfind : p.find? key with
        | none =>
            cases he : Element.encodeAll seed values with
            | ok elements => exact ⟨elements, rfl⟩
            | error e =>
                rw [(set_of_encodeAll_error hd hfind he).1] at h
                cases h
        | some leaf =>
            rw [(set_of_find?_some hd hfind seed values).1] at h
            cases hr : renewal (p.place? key == some .root) leaf seed values with
            | ok elements => exact ⟨elements, (renewal_eq_ok hr).2.2.2⟩
            | error e =>
                rw [updateNow_of_refused hfind hr] at h
                cases h
  obtain ⟨elements, helements⟩ := hencode
  exact (Element.encodeAll_eq_ok_iff.mp helements).2.1

/-- A write is refused if one of the values does not fit, wherever in the list it stands. -/
theorem set_of_misfit (p : Plant) (key : String) {seed : Seed} {values : List Value} {v : Value}
    (hv : v ∈ values) (hmisfit : v.fits seed = false) :
    ∃ e, (p.set key seed values).answer = .error e := by
  cases hanswer : (p.set key seed values).answer with
  | error e => exact ⟨e, rfl⟩
  | ok _ =>
      rw [fits_of_set hanswer v hv] at hmisfit
      cases hmisfit

/-! ### Any call -/

/-- A refused call has changed nothing, or it is a `free` that has spared what has to stay. -/
theorem isAtomic_perform (p : Plant) (call : Call) : (p.perform call).IsAtomic p call := by
  intro e h
  cases call with
  | set key seed values => exact .inl (set_refused (Answer.refusal?_unit.mp h))
  | setFlags key flags => exact .inl (change_refused (Answer.refusal?_unit.mp h))
  | setHostWord key word => exact .inl (change_refused (Answer.refusal?_unit.mp h))
  | delete key => exact .inl (delete_refused (Answer.refusal?_unit.mp h))
  | free =>
      rcases free_refused (Answer.refusal?_unit.mp h) with hp | ⟨hu, -, he, hp⟩
      · exact .inl hp
      · exact .inr ⟨rfl, he, hu, hp⟩
  | _ => exact .inl rfl

theorem perform_of_isQuestion {call : Call} (h : call.isQuestion = true) (p : Plant) :
    (p.perform call).plant = p := by
  cases call with
  | set => cases h
  | setFlags => cases h
  | setHostWord => cases h
  | delete => cases h
  | free => cases h
  | _ => rfl

end

/-! ### Runs -/

theorem perform_of_not_mayChange {p : Plant} {call : Call}
    (h : call.mayChange (p.perform call).answer = false) : (p.perform call).plant = p := by
  have hkept (h : (!call.isQuestion && (p.perform call).answer.refusal?.isNone) = false) :
      call = .free ∨ (p.perform call).plant = p := by
    rw [Bool.and_eq_false_iff, Bool.not_eq_false', Option.isNone_eq_false_iff,
      Option.isSome_iff_exists] at h
    rcases h with hquestion | ⟨e, hrefused⟩
    · exact .inr (perform_of_isQuestion hquestion p)
    · rcases isAtomic_perform p call e hrefused with hp | ⟨hfree, -⟩
      · exact .inr hp
      · exact .inl hfree
  cases call with
  | free => cases h
  | _ => exact (hkept h).resolve_left fun hfree => by cases hfree

/-- The calls of a run that may have changed the plant, with what came of them. -/
def effective (p : Plant) (calls : List Call) : List (Call × Outcome Answer) :=
  (calls.zip (p.run calls).2).filter fun (call, outcome) => call.mayChange outcome.answer

/-- A run comes to the same without its questions and the calls that were refused. -/
theorem run_effective (p : Plant) (calls : List Call) :
    p.run ((p.effective calls).map Prod.fst) =
      ((p.run calls).1, (p.effective calls).map Prod.snd) := by
  induction calls generalizing p with
  | nil => rfl
  | cons call calls ih =>
      -- Induction on the calls. One that is left out has left the plant as it was, so the others
      -- come upon the same plants.
      have heffective : p.effective (call :: calls) =
          if call.mayChange (p.perform call).answer then
            (call, p.perform call) :: (p.perform call).plant.effective calls
          else (p.perform call).plant.effective calls :=
        List.filter_cons
      rw [heffective]
      cases hchange : call.mayChange (p.perform call).answer with
      | true =>
          rw [if_pos rfl, List.map_cons, List.map_cons, run, ih]
          rfl
      | false =>
          have hstill := perform_of_not_mayChange hchange
          rw [if_neg Bool.false_ne_true, hstill, ih]
          show _ = ((run (p.perform call).plant calls).1, _)
          rw [hstill]

end Plant

/-! ### Overlaps -/

variable [KeyHash]

/-- A call that is refused while another one is stopped has changed nothing either, be it for want
of a lock or not. -/
theorem Overlap.isAtomic_answerNow (o : Overlap) (call : Call) :
    (o.answerNow call).IsAtomic o.plant call := by
  have hperform := Plant.isAtomic_perform o.plant call
  cases call with
  | setHostWord key word =>
      rw [answerNow]
      split
      · exact fun _ _ => .inl rfl
      · exact hperform
  | hostWordOf key =>
      rw [answerNow]
      split
      · exact fun _ _ => .inl rfl
      · exact hperform
  | _ => exact hperform

theorem Overlap.answerNow_of_isQuestion {call : Call} (h : call.isQuestion = true) (o : Overlap) :
    (o.answerNow call).plant = o.plant := by
  cases call with
  | setHostWord => cases h
  | hostWordOf key =>
      rw [answerNow]
      split <;> rfl
  | _ => exact Plant.perform_of_isQuestion h o.plant

/-- A question that has to wait changes nothing, neither when it is started nor at its turn. -/
theorem Overlap.wait_of_isQuestion {o : Overlap} {call : Call} (h : call.isQuestion = true)
    {w : Waiting} (hw : o.wait? call = some w) :
    (o.start call).plant = o.plant ∧ ∀ seen p, (w.finish seen p).2 = p := by
  have hread : (if o.readsAwaited call then some (o.waitingRead call) else none) = some w := by
    cases call with
    | set => cases h
    | setFlags => cases h
    | delete => cases h
    | free => cases h
    | _ => exact hw
  have hform : w = o.waitingRead call := by
    split at hread
    · exact (Option.some.inj hread).symm
    · cases hread
  subst hform
  rw [plant_start hw]
  cases call with
  | set => cases h
  | setFlags => cases h
  | setHostWord => cases h
  | delete => cases h
  | free => cases h
  | _ => exact ⟨rfl, fun _ _ => rfl⟩

/-- A stopped call that is refused when it goes on has changed nothing. -/
theorem Stopped.finish_refused {s : Stopped} {p : Plant} {e : StoreError}
    (h : (s.finish p).1.refusal? = some e) : (s.finish p).2 = p := by
  cases s with
  | updating name seed values => exact Plant.updateNow_refused (Answer.refusal?_unit.mp h)
  | inserting key seed values => exact Plant.set_refused (Answer.refusal?_unit.mp h)
  | _ => rfl

/-- A waiting call that is refused at its turn has changed nothing but the mark that it has put
on, or it is a `free` that has spared what has to stay. -/
theorem Waiting.finish_refused {w : Waiting} {seen p : Plant} {e : StoreError}
    (h : (w.finish seen p).1.refusal? = some e) :
    (w.finish seen p).2 = (if w.marksRoot then p.unmark else p) ∨
      ((∃ start, w = .sweeping start) ∨ w = .freeing) ∧ e = .undeletable ∧
        (if w.marksRoot then p.unmark else p).Spares (w.finish seen p).2 := by
  cases w with
  | updating name seed values =>
      exact .inl (Plant.updateNow_refused (Answer.refusal?_unit.mp h))
  | flagging name flags => exact .inl (Plant.change_refused (Answer.refusal?_unit.mp h))
  | inserting key seed values => exact .inl (Plant.set_refused (Answer.refusal?_unit.mp h))
  | removing key index =>
      have hanswer : (p.reportDeleted key (p.unmark.removeAt index)).answer = .error e :=
        Answer.refusal?_unit.mp h
      rw [Plant.reportDeleted_answer] at hanswer
      left
      show (p.reportDeleted key (p.unmark.removeAt index)).plant = p.unmark
      rw [Plant.reportDeleted_plant, Plant.removeAt_refused hanswer]
  | deleting key => exact .inl (Plant.deleteAfterWait_refused (Answer.refusal?_unit.mp h))
  | sweeping start =>
      have hanswer : (p.unmark.freeFrom start).answer = .error e := Answer.refusal?_unit.mp h
      obtain ⟨he, hp⟩ := Plant.freeFrom_refused hanswer
      refine .inr ⟨.inl ⟨start, rfl⟩, he, ?_⟩
      show p.unmark.Spares (p.unmark.freeFrom start).plant
      rw [hp]
      exact p.unmark.spares_sweep start
  | freeing =>
      have hanswer : p.freeAfterWait.answer = .error e := Answer.refusal?_unit.mp h
      rcases Plant.freeAfterWait_refused hanswer with hp | ⟨-, he, hp⟩
      · exact .inl hp
      · refine .inr ⟨.inr rfl, he, ?_⟩
        show p.Spares p.freeAfterWait.plant
        rw [hp]
        exact p.spares_sweep 0
  | _ => exact .inl rfl

/-! ### The theorem -/

/-- Refusals are atomic, and questions are pure. A call that is refused, on any plant and with any
arguments, leaves the plant exactly as it was, with one exception: a `free` that comes to leaves
that have to stay has taken out the others of the chain, and has touched nothing else. So a write
is without effect if any one value of its list does not fit. A question leaves the plant as it was
whatever it is answered, and a run comes to the same without its questions and the calls that were
refused.

In an overlap this holds of the calls that are made at once, of the stopped call when it goes on,
and of each waiting call at its turn, which takes off the mark that it has put on. -/
theorem Plant.refusals_are_atomic (p : Plant) :
    (∀ call, (p.perform call).IsAtomic p call) ∧
    (∀ key seed before v after, v.fits seed = false →
      let o := p.perform (.set key seed (before ++ v :: after))
      (∃ e, o.answer = .unit (.error e)) ∧ o.plant = p) ∧
    (∀ call, call.isQuestion = true → (p.perform call).plant = p) ∧
    (∀ calls, p.run ((p.effective calls).map Prod.fst) =
      ((p.run calls).1, (p.effective calls).map Prod.snd)) ∧
    (∀ (o : Overlap) (call : Call),
      (o.answerNow call).IsAtomic o.plant call ∧
      (call.isQuestion = true → (o.answerNow call).plant = o.plant ∧
        ∀ w, o.wait? call = some w →
          (o.start call).plant = o.plant ∧ ∀ seen, (w.finish seen p).2 = p)) ∧
    (∀ (s : Stopped) e, (s.finish p).1.refusal? = some e → (s.finish p).2 = p) ∧
    (∀ (w : Waiting) seen e, (w.finish seen p).1.refusal? = some e →
      (w.finish seen p).2 = (if w.marksRoot then p.unmark else p) ∨
        ((∃ start, w = .sweeping start) ∨ w = .freeing) ∧ e = .undeletable ∧
          (if w.marksRoot then p.unmark else p).Spares (w.finish seen p).2) := by
  refine ⟨isAtomic_perform p, ?_, fun call h => perform_of_isQuestion h p, p.run_effective, ?_,
    fun s e => Stopped.finish_refused, fun w seen e => Waiting.finish_refused⟩
  · intro key seed before v after hmisfit o
    obtain ⟨e, he⟩ := p.set_of_misfit key (List.mem_append_right before List.mem_cons_self) hmisfit
    exact ⟨⟨e, congrArg Answer.unit he⟩, set_refused he⟩
  · intro o call
    refine ⟨o.isAtomic_answerNow call, fun h => ⟨Overlap.answerNow_of_isQuestion h o, ?_⟩⟩
    intro w hw
    obtain ⟨hstart, hfinish⟩ := Overlap.wait_of_isQuestion h hw
    exact ⟨hstart, fun seen => hfinish seen p⟩

end PlantStore
