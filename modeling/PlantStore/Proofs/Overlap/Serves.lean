import Mathlib.Data.List.TakeDrop
import PlantStore.Proofs.Overlap.Ordinary

/-! # What a waiting call has found

A stopped call and every waiting call have looked at the plant, and what they found stays true
until they go on: the leaf that an update stands on stays in the chain, the elements that wait
to be put in place are still permitted, a removal's place is still that of its key. The relations
below say, for the way in which a call waits, what it has found and which call it is. -/

namespace PlantStore

variable [KeyHash]

/-- `w.Serves met p call` says that the call came upon the plant `met` and waits as `w`, and that
what it has found holds of the plant `p`, to which `met` has come since. -/
inductive Waiting.Serves (met p : Plant) : Call → Waiting → Prop
  | publishing {key : String} {seed : Seed} {values : List Value} {leaf : Leaf}
    {elements : List Element} (hfind : p.find? key = some leaf)
    (hr : Plant.renewal (leafName key == rootKey) leaf seed values = .ok elements) :
    Serves met p (.set key seed values) (.publishing (leafName key) elements)
  | updating {key : String} {seed : Seed} {values : List Value} {leaf : Leaf}
    (hmet : met.has key = true) (hfind : p.find? key = some leaf) (hseed : leaf.seed = seed) :
    Serves met p (.set key seed values) (.updating (leafName key) seed values)
  | flagging {key : String} {flags : LeafFlags} :
    Serves met p (.setFlags key flags) (.flagging (leafName key) flags)
  | inserting {key : String} {seed : Seed} {values : List Value} (hfind : p.find? key = none) :
    Serves met p (.set key seed values) (.inserting key seed values)
  | removing {key : String} {index : Nat} (hplace : p.place? key = some (.link index)) :
    Serves met p (.delete key) (.removing key index)
  | deleting {key : String} (hd : p.isDefunct = false) (hkey : leafName key ≠ rootKey) :
    Serves met p (.delete key) (.deleting key)
  | sweeping {start : Nat} : Serves met p .free (.sweeping start)
  | freeing : Serves met p .free .freeing
  | reading {call : Call} (hread : ∀ p : Plant, (p.perform call).plant = p)
    (hcall : call ≠ .describe) :
    Serves met p call (.reading call)
  | exporting {order : ExportOrder} {before left : List String}
    (hnames : before ++ left = met.names) :
    Serves met p (.exported order) (.exporting order (met.entriesOf before) left)
  | viewing {before left : List String} (hnames : before ++ left = met.names) :
    Serves met p .views (.viewing met.length met.isDefunct (before.map met.view) left)

/-- `s.Holds met p call` says that the call came upon the plant `met` and was stopped as `s`, and
that what it has found holds of the plant `p`, to which `met` has come since. -/
inductive Stopped.Holds (met p : Plant) : Call → Stopped → Prop
  | reading {call : Call} {name : String} (hplant : (met.perform call).plant = met) :
    Holds met p call (.reading name (met.perform call).answer)
  | listing : Holds met p .keys .listing
  | updating {key : String} {seed : Seed} {values : List Value} {leaf : Leaf}
    (hfind : p.find? key = some leaf) (hseed : leaf.seed = seed) :
    Holds met p (.set key seed values) (.updating (leafName key) seed values)
  | inserting {key : String} {seed : Seed} {values : List Value} (hfind : p.find? key = none) :
    Holds met p (.set key seed values) (.inserting key seed values)

/-- What a call has come upon does not depend on the mark. -/
theorem Waiting.Serves.met_of_unmark {met p : Plant} {call : Call} {w : Waiting}
    (h : w.Serves met.unmark p call) : w.Serves met p call := by
  cases h with
  | publishing hfind hr => exact .publishing hfind hr
  | updating hmet hfind hseed => exact .updating (met.has_unmark _ ▸ hmet) hfind hseed
  | flagging => exact .flagging
  | inserting hfind => exact .inserting hfind
  | removing hplace => exact .removing hplace
  | deleting hd hkey => exact .deleting hd hkey
  | sweeping => exact .sweeping
  | freeing => exact .freeing
  | reading hread hcall => exact .reading hread hcall
  | exporting hnames =>
      rw [Plant.entriesOf_unmark]
      exact .exporting (hnames.trans met.names_unmark)
  | viewing hnames =>
      rw [Plant.length_unmark, Plant.isDefunct_unmark,
        List.map_congr_left fun key _ => met.view_unmark key]
      exact .viewing (hnames.trans met.names_unmark)

namespace Overlap

/-! ### Moves -/

section

variable {o : Overlap} {q : Plant} (hs : o.plant.Searchable) (hmove : o.Moves q)

include hs hmove

/-- While there is a reader, no move takes a leaf out of reach or changes its seed. -/
theorem Moves.find?_some (hreader : o.stopped.isReader = true) {key : String} {leaf : Leaf}
    (hfind : o.plant.find? key = some leaf) :
    ∃ after, q.find? key = some after ∧ after.seed = leaf.seed ∧
      (o.writerTaken (leafName key) = true → after.flags = leaf.flags) := by
  cases hmove with
  | stays => exact ⟨leaf, hfind, rfl, fun _ => rfl⟩
  | writes name hf hflags =>
      refine ⟨leaf.alter name _, ?_, (hf.alter name).seed leaf, fun _ => ?_⟩
      · rw [hs.find?_alter name hf, hfind]
        rfl
      · rw [Leaf.alter]
        split
        · exact hflags leaf
        · rfl
  | @flags name f hf hfree =>
      -- Flags change only where the writer mutex is free.
      refine ⟨leaf.alter name f, ?_, (hf.alter name).seed leaf, fun htaken => ?_⟩
      · rw [hs.find?_alter name hf, hfind]
        rfl
      · rw [Leaf.alter_of_ne]
        rintro rfl
        rw [(hs.find?_eq_some_iff.mp hfind).2.2, htaken] at hfree
        cases hfree
  | @links new hlinked hd hfree =>
      refine ⟨leaf, ?_, rfl, fun _ => rfl⟩
      rw [hs.find?_link hd hlinked, if_neg, hfind]
      intro hname
      obtain ⟨-, hmem, hleaf⟩ := hs.find?_eq_some_iff.mp hfind
      exact hlinked.name_ne_of_link leaf hmem (hleaf.trans hname.symm)
  | removes q hnot hfree =>
      rw [hreader] at hnot
      cases hnot

/-- While somebody has the rights, no move changes which keys have a leaf, or where it is. -/
theorem Moves.place?_eq (htaken : o.rightsTaken = true) (key : String) :
    q.place? key = o.plant.place? key ∧ (o.plant.find? key = none → q.find? key = none) ∧
      q.isDefunct = o.plant.isDefunct := by
  have halter : ∀ name {f : Leaf → Leaf}, Leaf.IsContent f →
      (o.plant.alter name f).place? key = o.plant.place? key ∧
        (o.plant.find? key = none → (o.plant.alter name f).find? key = none) ∧
        (o.plant.alter name f).isDefunct = o.plant.isDefunct := by
    intro name f hf
    refine ⟨hs.place?_alter name hf key, fun hnone => ?_, Plant.isDefunct_alter _ name hf⟩
    rw [hs.find?_alter name hf, hnone]
    rfl
  -- Only a move that links or removes could change a place, and both need the rights to be free.
  cases hmove with
  | stays => exact ⟨rfl, id, rfl⟩
  | writes name hf hflags => exact halter name hf
  | flags hf hfree => exact halter _ hf
  | links hlinked hd hfree =>
      rw [htaken] at hfree
      cases hfree
  | removes q hnot hfree =>
      rw [htaken] at hfree
      cases hfree

/-- What a waiting call has found stays true under every move. -/
theorem Moves.serves {met : Plant} {call : Call} {w : Waiting}
    (hw : w ∈ o.waiting) (hheld : w.wantsRights = true ∨ o.stopped.isReader = true)
    (h : w.Serves met o.plant call) : w.Serves met q call := by
  have hrights : w.wantsRights = true → o.rightsTaken = true := by
    intro hwants
    rw [rightsTaken, Bool.or_eq_true]
    exact .inr (List.any_eq_true.mpr ⟨w, hw, hwants⟩)
  have hreader : w.wantsRights = false → o.stopped.isReader = true := by
    intro hnot
    rcases hheld with hwants | hreads
    · rw [hnot] at hwants
      cases hwants
    · exact hreads
  cases h with
  | @publishing key seed values leaf elements hfind hr =>
      obtain ⟨after, hafter, hseed, hflags⟩ := hmove.find?_some hs (hreader rfl) hfind
      refine .publishing hafter ?_
      -- It holds the writer mutex, so nobody has changed the flags that it has checked.
      have htaken : o.writerTaken (leafName key) = true := by
        rw [writerTaken, Bool.or_eq_true]
        right
        exact List.any_eq_true.mpr ⟨_, hw, beq_self_eq_true _⟩
      rw [Plant.renewal_congr hseed (hflags htaken)]
      exact hr
  | updating hmet hfind hseed =>
      obtain ⟨after, hafter, hsame, -⟩ := hmove.find?_some hs (hreader rfl) hfind
      exact .updating hmet hafter (hsame.trans hseed)
  | flagging => exact .flagging
  | inserting hfind =>
      exact .inserting ((hmove.place?_eq hs (hrights rfl) _).2.1 hfind)
  | removing hplace =>
      exact .removing ((hmove.place?_eq hs (hrights rfl) _).1.trans hplace)
  | @deleting key hd hkey =>
      exact .deleting ((hmove.place?_eq hs (hrights rfl) key).2.2.trans hd) hkey
  | sweeping => exact .sweeping
  | freeing => exact .freeing
  | reading hread hcall => exact .reading hread hcall
  | exporting hnames => exact .exporting hnames
  | viewing hnames => exact .viewing hnames

/-- What the stopped call has found stays true under every move. -/
theorem Moves.holds {met : Plant} {call : Call} (h : o.stopped.Holds met o.plant call) :
    o.stopped.Holds met q call := by
  generalize hstopped : o.stopped = s at h ⊢
  cases h with
  | reading hplant => exact .reading hplant
  | listing => exact .listing
  | updating hfind hseed =>
      have hreader : o.stopped.isReader = true := by rw [hstopped]; rfl
      obtain ⟨after, hafter, hsame, -⟩ := hmove.find?_some hs hreader hfind
      exact .updating hafter (hsame.trans hseed)
  | inserting hfind =>
      have htaken : o.rightsTaken = true := by
        rw [rightsTaken, hstopped]
        rfl
      exact .inserting ((hmove.place?_eq hs htaken _).2.1 hfind)

end

/-! ### Stopping and waiting -/

section

variable {o : Overlap} (hs : o.plant.Searchable)

include hs

theorem serves_of_waitSet? {key : String} {seed : Seed} {values : List Value} {w : Waiting}
    (h : o.waitSet? key seed values = some w) :
    w.Serves o.plant o.plant (.set key seed values) := by
  rcases waitSet?_eq_some h with ⟨hfind, -, rfl⟩ | ⟨leaf, hfind, hseed, hwaits⟩
  · exact .inserting hfind
  · obtain ⟨hd, -, hname⟩ := hs.find?_eq_some_iff.mp hfind
    rw [hname, hs.place?_beq_root hd] at hwaits
    rcases hwaits with ⟨-, rfl⟩ | ⟨elements, -, hr, rfl⟩
    · exact .updating (Plant.has_eq_true_iff.mpr ⟨leaf, hfind⟩) hfind hseed
    · exact .publishing hfind hr

theorem serves_of_waitFlags? {key : String} {flags : LeafFlags} {w : Waiting}
    (h : o.waitFlags? key flags = some w) : w.Serves o.plant o.plant (.setFlags key flags) := by
  obtain ⟨leaf, hfind, -, rfl⟩ := waitFlags?_eq_some h
  rw [(hs.find?_eq_some_iff.mp hfind).2.2]
  exact .flagging

theorem serves_of_waitDelete? {key : String} {w : Waiting} (h : o.waitDelete? key = some w) :
    w.Serves o.plant o.plant (.delete key) := by
  obtain ⟨index, hplace, hwaits⟩ := waitDelete?_eq_some h
  rcases hwaits with ⟨-, rfl⟩ | ⟨-, rfl⟩
  · obtain ⟨hd, leaf, hleaf, hname⟩ := hs.place?_eq_link_iff.mp hplace
    exact .deleting hd (hname ▸ hs.chain_name leaf (List.mem_of_getElem? hleaf))
  · exact .removing hplace

omit [KeyHash] hs in
theorem serves_of_waitFree? [KeyHash] {w : Waiting} (h : o.waitFree? = some w) :
    w.Serves o.plant o.plant .free := by
  rcases (waitFree?_eq_some h).2 with ⟨-, rfl⟩ | ⟨-, rfl⟩
  · exact .freeing
  · exact .sweeping

/-- A call that has to wait serves itself in the way in which it waits. -/
theorem serves_of_wait? {call : Call} {w : Waiting} (h : o.wait? call = some w) :
    w.Serves o.plant o.plant call := by
  have hread : ∀ call : Call, (∀ p : Plant, (p.perform call).plant = p) → call ≠ .describe →
      (if o.readsAwaited call then some (Waiting.reading call) else none) = some w →
      w.Serves o.plant o.plant call := by
    intro call hplant hcall hw
    split at hw
    · cases hw
      exact .reading hplant hcall
    · cases hw
  have hnames : o.namesUpToAwaited.1 ++ o.namesUpToAwaited.2 = o.plant.names := by
    rw [namesUpToAwaited, List.span_eq_takeWhile_dropWhile]
    exact List.takeWhile_append_dropWhile
  cases call with
  | set key seed values => exact serves_of_waitSet? hs h
  | setFlags key flags => exact serves_of_waitFlags? hs h
  | delete key => exact serves_of_waitDelete? hs h
  | free => exact serves_of_waitFree? h
  | exported order =>
      have hw : (if o.readsAwaited (.exported order) then
          some (.exporting order (o.plant.entriesOf o.namesUpToAwaited.1) o.namesUpToAwaited.2)
        else none) = some w := h
      split at hw
      · cases hw
        exact .exporting hnames
      · cases hw
  | views =>
      have hw : (if o.readsAwaited .views then
          some (.viewing o.plant.length o.plant.isDefunct
            (o.namesUpToAwaited.1.map o.plant.view) o.namesUpToAwaited.2)
        else none) = some w := h
      split at hw
      · cases hw
        exact .viewing hnames
      · cases hw
  | describe => cases h
  | setHostWord key word => cases h
  | _ => exact hread _ (fun _ => rfl) (fun hc => by cases hc) h

end

end Overlap
end PlantStore
