import PlantStore.Proofs.Rewording

/-! # Calls that name their leaf

A search resolves the empty key at once and takes the other way for every key that has characters,
the name of the root among them. On a well-formed plant both ways lead to the root. So a call can
say the name of the leaf that its key stands for in place of the key, and comes to the same; where
it makes a leaf or removes one the two are the same word in any case. -/

namespace PlantStore

/-! ### Naming -/

/-- The call with the name of its leaf in place of its key. -/
def Call.named : Call → Call
  | set key seed values => set (leafName key) seed values
  | get key index => get (leafName key) index
  | getAs kind key => getAs kind (leafName key)
  | getAll key => getAll (leafName key)
  | probe key index => probe (leafName key) index
  | numElements key => numElements (leafName key)
  | elementSize key index => elementSize (leafName key) index
  | seedOf key => seedOf (leafName key)
  | flagsOf key => flagsOf (leafName key)
  | setFlags key flags => setFlags (leafName key) flags
  | hostWordOf key => hostWordOf (leafName key)
  | setHostWord key word => setHostWord (leafName key) word
  | has key => has (leafName key)
  | delete key => delete (leafName key)
  | call => call

/-- The waiting call with the name of its leaf. All but reads have it anyway. -/
def Waiting.named : Waiting → Waiting
  | reading call => reading call.named
  | w => w

/-- The event with the name of a leaf in place of the key that was asked for. -/
def Event.named : Event → Event
  | wrote key seed count outcome => wrote (leafName key) seed count outcome
  | read key index outcome => read (leafName key) index outcome
  | event => event

variable [KeyHash]

namespace Plant

/-- A search does not look at the mark. -/
theorem Searchable.of_unmark {p : Plant} (h : p.unmark.Searchable) : p.Searchable where
  hash_eq := by
    intro leaf hleaf
    rcases List.mem_cons.mp hleaf with rfl | hchain
    · exact h.hash_eq p.unmark.root List.mem_cons_self
    · exact h.hash_eq leaf (List.mem_cons_of_mem _ hchain)
  root_name := h.root_name
  chain_name := h.chain_name
  chain_filled := h.chain_filled
  chain_nodup := h.chain_nodup

/-! ### Calls by themselves -/

section

variable {p : Plant} (h : p.Searchable)

include h

theorem Searchable.ask_leafName {α : Type} (key : String) (question : Leaf → Result α) :
    p.ask (leafName key) question = p.ask key question := by
  rw [ask, ask, h.find?_leafName]

theorem Searchable.askOr_leafName {α : Type} (key : String) (absent : α) (question : Leaf → α) :
    p.askOr (leafName key) absent question = p.askOr key absent question := by
  rw [askOr, askOr, h.find?_leafName]

theorem Searchable.get_leafName (key : String) (index : Nat) :
    p.get (leafName key) index = p.get key index :=
  h.ask_leafName key _

theorem Searchable.getAs_leafName (kind : ValueKind) (key : String) :
    p.getAs kind (leafName key) = p.getAs kind key := by
  rw [getAs, getAs, h.get_leafName]

/-- A read reports the key that it was asked for. -/
theorem Searchable.getEvents_leafName (key : String) (index : Nat) :
    p.getEvents (leafName key) index = (p.getEvents key index).map Event.named := by
  rw [getEvents, getEvents, h.find?_leafName]
  split
  · split
    · rw [report, report]
      split <;> rfl
    · rfl
  · rfl

/-- A key without a leaf is no second name, unless there are no leaves at all. -/
theorem Searchable.leafName_of_absent (hd : p.isDefunct = false) {key : String}
    (hfind : p.find? key = none) : leafName key = key := by
  refine leafName_eq_self fun hroot => ?_
  exact h.ne_of_find?_none hd hfind p.root List.mem_cons_self (h.root_name.trans hroot.symm)

theorem Searchable.store_leafName (key : String) (seed : Seed) (values : List Value) :
    p.store (leafName key) seed values = p.store key seed values := by
  rw [store, store, h.has_leafName]
  split
  · rfl
  next hd =>
    cases hhas : p.has key with
    | true =>
        rw [if_pos rfl, if_pos rfl, h.update_leafName]
    | false =>
        rw [h.leafName_of_absent (Bool.eq_false_iff.mpr hd) (has_eq_false_iff.mp hhas)]

theorem Searchable.set_leafName (key : String) (seed : Seed) (values : List Value) :
    p.set (leafName key) seed values = (p.set key seed values).retold Event.named := by
  have hreport (answer : Result Unit) : p.report (.wrote (leafName key) seed values.length answer) =
      (p.report (.wrote key seed values.length answer)).map Event.named := by
    rw [report, report]
    split <;> rfl
  rw [set, set, h.store_leafName]
  split
  next after events hstore =>
    -- A new leaf is reported under its name.
    have hevents : events.map Event.named = events := by
      rcases events_of_store hstore with rfl | rfl <;> rfl
    rw [Outcome.retold, List.map_append, hevents, hreport]
  next e hstore =>
    rw [Outcome.retold, hreport]

/-- Nor is the key of a leaf of the chain. -/
theorem Searchable.leafName_of_place? {key : String} {index : Nat}
    (hplace : p.place? key = some (.link index)) : leafName key = key := by
  obtain ⟨-, leaf, hleaf, hname⟩ := h.place?_eq_link_iff.mp hplace
  exact leafName_eq_self (hname ▸ h.chain_name leaf (List.mem_of_getElem? hleaf))

/-- A removal is of a leaf of the chain, whose key is its name. -/
theorem Searchable.delete_leafName (key : String) :
    p.delete (leafName key) = (p.delete key).retold Event.named := by
  rw [delete, delete, h.place?_leafName]
  cases hplace : p.place? key with
  | none => rfl
  | some place =>
      cases place with
      | root => rfl
      | link index =>
          dsimp only
          rw [h.leafName_of_place? hplace, removeAt]
          split
          · rfl
          split
          · rfl
          · rw [reportDeleted, report]
            dsimp only
            split <;> rfl

omit h in
/-- The type is read under the name of the root. -/
theorem named_getEvents_rootKey (p : Plant) :
    (p.getEvents rootKey 0).map Event.named = p.getEvents rootKey 0 := by
  rw [getEvents]
  split
  · split
    · rw [report]
      split
      · rw [List.map_singleton, Event.named, leafName_rootKey]
      · rfl
    · rfl
  · rfl

omit h in
theorem retold_free (p : Plant) : p.free.retold Event.named = p.free := by
  have hswept : (p.sweepEvents 0).map Event.named = p.sweepEvents 0 := by
    rw [sweepEvents, List.map_map]
    rfl
  have hfreed : (p.report .freed).map Event.named = p.report .freed := by
    rw [report]
    split <;> rfl
  -- A `free` speaks of names and not of keys.
  rw [free]
  split
  · rfl
  rw [freeAfterWait]
  split
  · rfl
  rw [freeFrom]
  split
  · rw [Outcome.retold, List.map_append, List.map_append, hswept, named_getEvents_rootKey]
    rfl
  split
  · rw [Outcome.retold, hswept]
  · rw [Outcome.retold, List.map_append, hswept, hfreed]

theorem Searchable.change_leafName_retold (key : String) (f : Leaf → Leaf) :
    p.change (leafName key) f = (p.change key f).retold Event.named := by
  rw [h.change_leafName, Outcome.retold, events_change]
  exact congrArg (Outcome.mk _ _) (events_change key f)

/-- A call that says the name of its leaf does and answers the same. -/
theorem Searchable.perform_named (call : Call) :
    p.perform call.named = (p.perform call).retold Event.named := by
  cases call with
  | set key seed values => exact congrArg (Outcome.map Answer.unit) (h.set_leafName key seed values)
  | get key index =>
      show p.answering (Answer.value (p.get (leafName key) index)) _ = _
      rw [h.get_leafName, h.getEvents_leafName]
      rfl
  | getAs kind key =>
      show p.answering (Answer.typed (p.getAs kind (leafName key))) _ = _
      rw [h.getAs_leafName, h.getEvents_leafName]
      rfl
  | getAll key => exact congrArg (fun a => p.answering (Answer.values a) []) (h.ask_leafName key _)
  | probe key index =>
      exact congrArg (fun a => p.answering (Answer.unit a) []) (h.ask_leafName key _)
  | numElements key =>
      exact congrArg (fun a => p.answering (Answer.count a) []) (h.askOr_leafName key _ _)
  | elementSize key index =>
      exact congrArg (fun a => p.answering (Answer.count a) []) (h.askOr_leafName key _ _)
  | seedOf key =>
      exact congrArg (fun a => p.answering (Answer.seed a) []) (h.askOr_leafName key _ _)
  | flagsOf key =>
      exact congrArg (fun a => p.answering (Answer.flags a) []) (h.askOr_leafName key _ _)
  | setFlags key flags =>
      exact congrArg (Outcome.map Answer.unit) (h.change_leafName_retold key _)
  | hostWordOf key =>
      exact congrArg (fun a => p.answering (Answer.word a) []) (h.ask_leafName key _)
  | setHostWord key word =>
      exact congrArg (Outcome.map Answer.unit) (h.change_leafName_retold key _)
  | has key => exact congrArg (fun a => p.answering (Answer.truth a) []) (h.has_leafName key)
  | delete key => exact congrArg (Outcome.map Answer.unit) (h.delete_leafName key)
  | free => exact congrArg (Outcome.map Answer.unit) p.retold_free.symm
  | type =>
      show p.answering (Answer.type p.type) (p.getEvents rootKey 0) = _
      rw [← p.named_getEvents_rootKey]
      rfl
  | _ => rfl

end

end Plant

/-! ### Calls in an overlap -/

/-- A call that says the name of its leaf is stopped in the same way. -/
theorem Stopped.of?_named {p : Plant} (hp : p.Searchable) (hold : Call) :
    of? p hold.named = of? p hold := by
  have hread (key : String) (copies : Leaf → Bool) (answer : Answer) :
      ofRead? p (leafName key) copies answer = ofRead? p key copies answer := by
    rw [ofRead?, ofRead?, hp.find?_leafName]
  cases hold with
  | set key seed values =>
      show ofSet? p (leafName key) seed values = ofSet? p key seed values
      rw [ofSet?, ofSet?, hp.find?_leafName, hp.place?_leafName]
      split
      · rfl
      next hfind =>
        cases hd : p.isDefunct with
        | true => rfl
        | false => rw [hp.leafName_of_absent hd hfind]
  | get key index =>
      show ofRead? p (leafName key) _ (.value (p.get (leafName key) index)) = _
      rw [hread, hp.get_leafName]
      rfl
  | getAll key =>
      show ofRead? p (leafName key) _ (.values (p.getAll (leafName key))) = _
      rw [hread, Plant.getAll, hp.ask_leafName]
      rfl
  | _ => rfl

namespace Overlap

section

variable {o : Overlap} (h : o.plant.Searchable)

include h

theorem ofLeaf_leafName (key : String) (property : String → Bool) :
    o.ofLeaf (leafName key) property = o.ofLeaf key property := by
  rw [ofLeaf, ofLeaf, h.find?_leafName]

/-- A call that says the name of its leaf is made at once like the call. -/
theorem answerNow_named (call : Call) :
    o.answerNow call.named = (o.answerNow call).retold Event.named := by
  have hperform := h.perform_named call
  cases call with
  | setHostWord key word =>
      show o.answerNow (.setHostWord (leafName key) word) = _
      rw [answerNow, answerNow, ofLeaf_leafName h]
      split
      · rfl
      · exact hperform
  | hostWordOf key =>
      show o.answerNow (.hostWordOf (leafName key)) = _
      rw [answerNow, answerNow, ofLeaf_leafName h]
      split
      · rfl
      · exact hperform
  | _ => exact hperform

theorem waitSet?_named (key : String) (seed : Seed) (values : List Value) :
    o.waitSet? (leafName key) seed values = (o.waitSet? key seed values).map Waiting.named := by
  rw [waitSet?, waitSet?, h.find?_leafName, h.place?_leafName]
  split
  · repeat' split
    all_goals rfl
  -- Without a leaf the key is not that of the root, so it is its own name.
  next hfind =>
    cases hd : o.plant.isDefunct with
    | true => rfl
    | false =>
        rw [h.leafName_of_absent hd hfind]
        split <;> rfl

theorem waitDelete?_named (key : String) :
    o.waitDelete? (leafName key) = (o.waitDelete? key).map Waiting.named := by
  rw [waitDelete?, waitDelete?, h.place?_leafName]
  cases hplace : o.plant.place? key with
  | none => rfl
  | some place =>
      cases place with
      | root => rfl
      | link index =>
          rw [h.leafName_of_place? hplace]
          dsimp only
          repeat' split
          all_goals rfl

theorem readsAwaited_named (call : Call) : o.readsAwaited call.named = o.readsAwaited call := by
  cases call with
  | get | getAs | getAll | probe | numElements | elementSize => exact ofLeaf_leafName h _ _
  | _ => rfl

omit h in
theorem waitingRead_named (call : Call) :
    o.waitingRead call.named = (o.waitingRead call).named := by
  cases call <;> rfl

/-- A call that says the name of its leaf waits in the same way. -/
theorem wait?_named (call : Call) : o.wait? call.named = (o.wait? call).map Waiting.named := by
  have hread (call : Call)
      (hnamed : o.wait? call.named =
        if o.readsAwaited call.named then some (o.waitingRead call.named) else none)
      (hwait : o.wait? call = if o.readsAwaited call then some (o.waitingRead call) else none) :
      o.wait? call.named = (o.wait? call).map Waiting.named := by
    rw [hnamed, hwait, readsAwaited_named h, waitingRead_named]
    split <;> rfl
  cases call with
  | set key seed values => exact waitSet?_named h key seed values
  | setFlags key flags =>
      show o.waitFlags? (leafName key) flags = (o.waitFlags? key flags).map Waiting.named
      rw [waitFlags?, waitFlags?, h.find?_leafName]
      split
      · split <;> rfl
      · rfl
  | delete key => exact waitDelete?_named h key
  | free =>
      show o.waitFree? = o.waitFree?.map Waiting.named
      simp only [waitFree?]
      repeat' split
      all_goals rfl
  | _ => exact hread _ rfl rfl

end

end Overlap

/-- A read that waits and says the name of its leaf is answered the same at its turn. -/
theorem Waiting.finish_named {seen : Plant} (h : seen.Searchable) (w : Waiting) (p : Plant) :
    w.named.finish seen p = w.finish seen p := by
  cases w with
  | reading call =>
      show ((seen.perform call.named).answer, p) = ((seen.perform call).answer, p)
      rw [h.perform_named]
      rfl
  | _ => rfl

/-- Calls that say the name of their leaf in place of its key. -/
def naming : Rewording where
  call := Call.named
  waiting := Waiting.named
  event := Event.named
  of? hp c := Stopped.of?_named hp.toSearchable c
  answerNow ho := Overlap.answerNow_named (.of_unmark ho.toSearchable)
  wait? ho := Overlap.wait?_named (.of_unmark ho.toSearchable)
  wantsRights w := by cases w <;> rfl
  marksRoot w := by cases w <;> rfl
  publishes w _ := by cases w <;> rfl
  publish w _ := by cases w <;> rfl
  finish w _ _ hseen _ := w.finish_named (.of_unmark hseen.toSearchable) _

end PlantStore
