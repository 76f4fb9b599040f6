import PlantStore.Proofs.Overlap.Serializable
import PlantStore.Proofs.Protection.Effect
import PlantStore.Proofs.Session

/-! # Effects in an overlap

Everything that is done in an overlap is a sequence of effects too: what is made at once, what the
stopped call does when it goes on, and what the started ones do at their turn. A removal that was
started makes its first look at the flags before it waits and another one at its turn, where it
still stands at the leaf of its key. So it is refused if the leaf has become undeletable
meanwhile. -/

namespace PlantStore

/-- Whether a call would remove the leaf of a name. -/
def Call.Removes (name : String) : Call → Prop
  | .delete key => leafName key = name
  | .free => True
  | _ => False

theorem Call.not_removes_of_readsValues {call : Call} (h : call.readsValues = true)
    {name : String} : ¬call.Removes name := by
  cases call with
  | delete key => cases h
  | free => cases h
  | _ => exact id

namespace Plant

/-- The plant has not been freed, and the leaf of a name is there and undeletable. -/
def Guards (p : Plant) (name : String) : Prop :=
  p.Bears name fun leaf => leaf.isUndeletable = true

/-- The flags that a call may ask for if the leaf of a name is to keep a flag. -/
def Granting (flag : LeafFlags) (name other : String) (flags : LeafFlags) : Prop :=
  other = name → flags.contains flag = true

/-- An undeletable leaf stays undeletable if all flags asked for it are. -/
theorem isUndeletable_of_becomes {name : String} {leaf next : Leaf}
    (hu : leaf.isUndeletable = true) (h : leaf.Becomes (Granting .undeletable name name) next) :
    next.isUndeletable = true := by
  cases h with
  | flags flags hflags =>
      have hasked := hflags rfl
      rw [LeafFlags.contains_undeletable] at hasked
      simp [Leaf.isUndeletable, hasked]
  | _ => exact hu

theorem Guards.after {p q : Plant} {name : String} (h : p.Guards name)
    (heffects : Effects (Granting .undeletable name) p q) : q.Guards name :=
  heffects.bears (fun _ => id) (fun _ _ => isUndeletable_of_becomes) h

variable [KeyHash]

/-! ### Removals that are refused -/

section

variable {p : Plant} (h : p.WellFormed)

include h

theorem WellFormed.removeAt_of_guards {key : String} {index : Nat}
    (hguards : p.Guards (leafName key)) (hplace : p.place? key = some (.link index)) :
    (p.removeAt index).answer = .error .undeletable := by
  obtain ⟨-, leaf, hleaf, hname, hu⟩ := hguards
  obtain ⟨-, other, hother, hsame⟩ := h.place?_eq_link_iff.mp hplace
  have hmem : other ∈ p.leaves := List.mem_cons_of_mem _ (List.mem_of_getElem? hother)
  obtain rfl : other = leaf := h.eq_of_name hmem hleaf (hsame.trans hname.symm)
  rw [Plant.removeAt, hother]
  dsimp only
  rw [if_pos hu]

theorem WellFormed.deleteAfterWait_of_guards {key : String} (hguards : p.Guards (leafName key))
    (hkey : leafName key ≠ rootKey) : (p.deleteAfterWait key).answer = .error .undeletable := by
  have ⟨hd, leaf, hleaf, hname, _⟩ := hguards
  have hchain : leaf ∈ p.chain := by
    rcases List.mem_cons.mp hleaf with rfl | hchain
    · exact absurd (hname.symm.trans h.root_name) hkey
    · exact hchain
  obtain ⟨index, hindex⟩ := List.getElem?_of_mem hchain
  have hplace : p.place? key = some (.link index) :=
    h.place?_eq_link_iff.mpr ⟨hd, leaf, hindex, hname⟩
  rw [h.deleteAfterWait_eq_delete hd hkey, delete_of_link hplace, reportDeleted_answer]
  exact h.removeAt_of_guards hguards hplace

omit h in
theorem freeFrom_of_guards {name : String} (hguards : p.Guards name) (start : Nat) :
    (p.freeFrom start).answer = .error .undeletable := by
  rcases p.freeFrom_cases start with ⟨-, ha, -⟩ | ⟨-, -, ha, -⟩ | ⟨hchain, hroot, -, -⟩
  · exact ha
  · exact ha
  · -- The leaf is left by the sweep, so it is the root, and that may not go.
    have hswept : Effects (Granting .undeletable name) p (p.sweep start) := .single (.sweeps start)
    obtain ⟨-, leaf, hleaf, -, hu⟩ := hguards.after hswept
    rw [leaves, hchain, List.mem_singleton] at hleaf
    have hsame : (p.sweep start).root = p.root := rfl
    rw [hleaf, hsame, hroot] at hu
    cases hu

end

end Plant

namespace Waiting

/-- All flags that a waiting call has still to give are allowed. -/
def Obeys (allowed : String → LeafFlags → Prop) (w : Waiting) : Prop :=
  ∀ name flags, w = .flagging name flags → allowed (leafName name) flags

/-- A removal that has the rights stands where the leaf of its key is. -/
def Stands [KeyHash] (p : Plant) (w : Waiting) : Prop :=
  ∀ key index, w = .removing key index → p.place? key = some (.link index)

theorem Stands.after [KeyHash] {p q : Plant} {w : Waiting} (h : w.Stands p)
    (hplaces : w.marksRoot = true → ∀ key, q.place? key = p.place? key) : w.Stands q := by
  rintro key index rfl
  exact (hplaces rfl key).trans (h key index rfl)

end Waiting

namespace Overlap

variable [KeyHash] {allowed : String → LeafFlags → Prop}

/-! ### The steps -/

theorem effects_answerNow {o : Overlap} (hp : o.plant.WellFormed) {call : Call}
    (hcall : call.Obeys allowed) : Plant.Effects allowed o.plant (o.answerNow call).plant := by
  have hperform := hp.effects_perform allowed hcall
  cases call with
  | setHostWord key word =>
      rw [answerNow]
      split
      · exact .refl
      · exact hperform
  | hostWordOf key =>
      rw [answerNow]
      split <;> exact .refl
  | _ => exact hperform

section

variable {start : Plant} {hold : Call} {asked : List (Call × Plant)} {o : Overlap}
  (h : o.Sound start hold asked)

include h

/-- All plants in the course of a script come about by effects, and they are well-formed. -/
theorem Sound.effects_plants {script : List Step} (hfeasible : o.isFeasible script = true)
    (hscript : ∀ s ∈ script, s.call.Obeys allowed) :
    ∀ q ∈ o.plants script,
      q.unmark.WellFormed ∧ Plant.Effects allowed o.plant.unmark q.unmark := by
  replace hfeasible := feasible_of_isFeasible hfeasible
  induction hfeasible generalizing asked with
  | nil =>
      intro q hq
      obtain rfl := List.mem_singleton.mp hq
      exact ⟨h.wellFormed, .refl⟩
  | @now o call rest hfree hrest ih =>
      obtain ⟨hcall, hlater⟩ := List.forall_mem_cons.mp hscript
      refine List.forall_mem_cons.mpr ⟨⟨h.wellFormed, .refl⟩, fun q hq => ?_⟩
      have hfirst : Plant.Effects allowed o.plant.unmark (o.answerNow call).plant.unmark := by
        rw [← plant_answerNow_unmark]
        exact effects_answerNow (o := o.unmark) h.wellFormed hcall
      obtain ⟨hwf, hothers⟩ := ih (h.now hfree) hlater q hq
      exact ⟨hwf, hfirst.trans hothers⟩
  | start hw hrest ih =>
      obtain ⟨-, hlater⟩ := List.forall_mem_cons.mp hscript
      refine List.forall_mem_cons.mpr ⟨⟨h.wellFormed, .refl⟩, ?_⟩
      rw [← plant_start_unmark hw]
      exact ih (h.started hw) hlater

end

/-! ### The end -/

theorem effects_publish {o : Overlap} (hp : o.plant.WellFormed) {met : Plant} {call : Call}
    {w : Waiting} (hw : w.Serves met o.plant call) :
    Plant.Effects allowed o.plant (w.publish o.plant) := by
  cases hw with
  | @publishing key seed values leaf elements hfind hr =>
      have hpublish : Waiting.publish o.plant (.publishing (leafName key) elements) =
          o.plant.alter (leafName key) fun leaf => { leaf with elements := elements } := by
        show o.plant.modify (leafName key) _ = _
        rw [hp.modify_eq_alter (hp.isDefunct_of_find? hfind), leafName_leafName]
      rw [hpublish]
      exact .single (hp.effect_elements allowed hfind hr)
  | _ => exact .refl

/-- Putting the elements of the waiting updates in place. -/
theorem effects_publish_all {o : Overlap} (hp : o.plant.WellFormed) {ws : List Waiting}
    (hmem : ∀ w ∈ ws, w ∈ o.waiting)
    (hreader : ∀ w ∈ ws, w.wantsRights = true ∨ o.stopped.isReader = true)
    {asked : List (Call × Plant)}
    (hserves : List.Forall₂ (fun w ask => w.Serves ask.2 o.plant ask.1) ws asked) :
    Plant.Effects allowed o.plant (ws.foldl Waiting.publish o.plant) := by
  induction ws generalizing o asked with
  | nil => exact .refl
  | cons w ws ih =>
      cases hserves with
      | cons hw hrest =>
          -- The first update is a move, under which the others still serve.
          obtain ⟨hmove, hafter⟩ := moves_publish hp hw
          have hmem' : ∀ u ∈ ws, u ∈ o.waiting := fun u hu => hmem u (List.mem_cons_of_mem _ hu)
          have hreader' : ∀ u ∈ ws, u.wantsRights = true ∨ o.stopped.isReader = true :=
            fun u hu => hreader u (List.mem_cons_of_mem _ hu)
          have hrest' := (List.forall₂_and_left _ _).mpr ⟨fun u (hu : u ∈ ws) => hu, hrest⟩
          have hserves' := hrest'.imp fun u ask hu =>
            hmove.serves hp.toSearchable (hmem' u hu.1) (hreader' u hu.1) hu.2
          exact (effects_publish hp hw).trans
            (ih (o := { o with plant := w.publish o.plant }) hafter hmem' hreader' hserves')

theorem effects_finish_waiting (seen : Plant) {p : Plant} (hp : p.WellFormed) {w : Waiting}
    (hw : w.Obeys allowed) : Plant.Effects allowed p (w.finish seen p).2 := by
  have hunmark : p.unmark = p := p.unmark_of_not hp.root_unmarked
  cases w with
  | updating name seed values => exact hp.effects_updateNow allowed name seed values
  | flagging name flags => exact hp.effects_setFlags allowed name (hw name flags rfl)
  | inserting key seed values => exact hp.effects_set allowed key seed values
  | removing key index =>
      show Plant.Effects allowed p (p.reportDeleted key (p.unmark.removeAt index)).plant
      rw [Plant.reportDeleted_plant, hunmark]
      exact Plant.effects_removeAt allowed p index
  | deleting key => exact Plant.effects_deleteAfterWait allowed p key
  | sweeping start =>
      show Plant.Effects allowed p (p.unmark.freeFrom start).plant
      rw [hunmark]
      exact Plant.effects_freeFrom allowed p start
  | freeing => exact Plant.effects_freeAfterWait allowed p
  | _ => exact .refl

theorem effects_serve (seen : Plant) {p : Plant} (hp : p.WellFormed) {ws : List Waiting}
    (hws : ∀ w ∈ ws, w.Obeys allowed) :
    Plant.Effects allowed p (serve seen p (ws.map .waiting)).2 := by
  induction ws generalizing p with
  | nil => exact .refl
  | cons w ws ih =>
      exact (effects_finish_waiting seen hp (hws w List.mem_cons_self)).trans
        (ih (wellFormed_finish_waiting seen hp w) fun u hu => hws u (List.mem_cons_of_mem _ hu))

section

variable {start : Plant} {hold : Call} {asked : List (Call × Plant)} {o : Overlap}
  (h : o.Sound start hold asked)

include h

theorem Sound.waiting_obeys (hasked : ∀ ask ∈ asked, ask.1.Obeys allowed) :
    ∀ w ∈ o.waiting, w.Obeys allowed := by
  obtain ⟨hfst, -, hserves⟩ := h.zip_served
  intro w hw name flags hflagging
  rw [← hfst] at hw
  obtain ⟨⟨w, ask⟩, hentry, rfl⟩ := List.mem_map.mp hw
  have hserve : w.Serves ask.2 o.plant.unmark ask.1 := hserves _ hentry
  have hobeys := hasked ask (List.of_mem_zip hentry).2
  obtain ⟨call, met⟩ := ask
  subst hflagging
  cases hserve with
  | @flagging key =>
      rw [leafName_leafName]
      exact hobeys key flags rfl

/-- The plant that the stopped call and the waiting updates leave comes about by effects. -/
theorem Sound.effects_published (hhold : hold.Obeys allowed) :
    Plant.Effects allowed o.plant.unmark
      (o.waiting.foldl Waiting.publish (o.stopped.finish o.plant.unmark).2) := by
  rcases h.publishes_cases with hnone | hstill
  · rw [publish_all_eq_self hnone]
    rcases finish_of_holds h.holds h.wellFormed.toSearchable with ⟨-, hover⟩ | hgoes
    · rw [hover]
    · rw [hgoes]
      exact h.wellFormed.effects_perform allowed hhold
  · rw [hstill]
    exact effects_publish_all (o := o.unmark) h.wellFormed (fun w hw => hw) h.reader h.serves

/-- The plant that an overlap leaves comes about by effects. -/
theorem Sound.effects_finish (hhold : hold.Obeys allowed)
    (hasked : ∀ ask ∈ asked, ask.1.Obeys allowed) (during : List (Option Answer)) :
    Plant.Effects allowed o.plant.unmark (o.finish during).plant := by
  have hturns : ∀ w ∈ Waiting.turns o.waiting, w.Obeys allowed := fun w hw =>
    h.waiting_obeys hasked w (Waiting.mem_turns.mp hw)
  rw [h.plant_finish]
  exact (h.effects_published hhold).trans (effects_serve _ h.wellFormed_published hturns)

end

/-! ### Removals at their turn -/

/-- A waiting call that does not want the rights moves no leaf. -/
theorem place?_finish_waiting (seen : Plant) {p : Plant} (hp : p.Searchable) {w : Waiting}
    (hw : w.wantsRights = false) (key : String) :
    (w.finish seen p).2.place? key = p.place? key := by
  cases w with
  | updating name seed values => exact hp.place?_updateNow name seed values key
  | flagging name flags => exact hp.place?_change name (Leaf.isContent_flags flags) key
  | publishing name elements => rfl
  | reading call => rfl
  | exporting order done left => rfl
  | viewing length isDefunct done left => rfl
  | _ => cases hw

/-- A removal is refused at its turn if it would remove an undeletable leaf. -/
theorem refused_at_turn (seen : Plant) {p r met : Plant} (hp : p.WellFormed) {name : String}
    (hguards : p.Guards name) {call : Call} {w : Waiting} (hserves : w.Serves met r call)
    (hstands : w.Stands p) (hreads : w.ReadsOnly) (hremoves : call.Removes name) :
    (w.finish seen p).1 = .unit (.error .undeletable) := by
  have hunmark : p.unmark = p := p.unmark_of_not hp.root_unmarked
  -- Only removals and `free` remove; each of them meets the protected leaf.
  cases hserves with
  | @removing key index =>
      obtain rfl : leafName key = name := hremoves
      have hanswer := hp.removeAt_of_guards hguards (hstands key index rfl)
      show Answer.unit (p.reportDeleted key (p.unmark.removeAt index)).answer = _
      rw [Plant.reportDeleted_answer, hunmark, hanswer]
  | @deleting key hd hkey =>
      obtain rfl : leafName key = name := hremoves
      exact congrArg Answer.unit (hp.deleteAfterWait_of_guards hguards hkey)
  | @sweeping start =>
      show Answer.unit (p.unmark.freeFrom start).answer = _
      rw [hunmark, Plant.freeFrom_of_guards hguards]
  | freeing =>
      show Answer.unit p.freeAfterWait.answer = _
      rw [Plant.freeAfterWait, if_neg (Bool.eq_false_iff.mp hguards.1),
        Plant.freeFrom_of_guards hguards]
  | reading => exact absurd hremoves (Call.not_removes_of_readsValues (hreads call rfl))
  | _ => exact hremoves.elim

/-- All removals of an undeletable leaf are refused at their turns. -/
theorem refused_turns (seen : Plant) {p : Plant} (hp : p.WellFormed) {name : String}
    (hguards : p.Guards name) {served : List (Waiting × Call × Plant)}
    (hserves : ∀ entry ∈ served, ∃ r, entry.1.Serves entry.2.2 r entry.2.1)
    (hstands : ∀ entry ∈ served, entry.1.Stands p) (hreads : ∀ entry ∈ served, entry.1.ReadsOnly)
    (hobeys : ∀ entry ∈ served, entry.1.Obeys (Plant.Granting .undeletable name))
    (hordered : (served.map Prod.fst).Pairwise fun a b =>
      a.wantsRights = true → b.marksRoot = false) :
    ∀ part ∈ (servedParts seen p served).map Prod.snd, part.call.Removes name →
      part.answer = .unit (.error .undeletable) := by
  induction served generalizing p with
  | nil =>
      intro part hpart
      cases hpart
  | cons entry rest ih =>
      obtain ⟨w, call, met⟩ := entry
      rw [List.map_cons, List.pairwise_cons] at hordered
      have heffects : Plant.Effects (Plant.Granting .undeletable name) p (w.finish seen p).2 :=
        effects_finish_waiting seen hp (hobeys _ List.mem_cons_self)
      intro part hpart hremoves
      rcases List.mem_cons.mp hpart with rfl | hpart
      · obtain ⟨r, hw⟩ := hserves _ List.mem_cons_self
        exact refused_at_turn seen hp hguards hw (hstands _ List.mem_cons_self)
          (hreads _ List.mem_cons_self) hremoves
      · refine ih (wellFormed_finish_waiting seen hp w) (hguards.after heffects)
          (fun later hlater => hserves later (List.mem_cons_of_mem _ hlater)) ?_
          (fun later hlater => hreads later (List.mem_cons_of_mem _ hlater))
          (fun later hlater => hobeys later (List.mem_cons_of_mem _ hlater)) hordered.2
          part hpart hremoves
        intro later hlater
        refine (hstands later (List.mem_cons_of_mem _ hlater)).after ?_
        -- A removal keeps its place, since nobody before it wants the rights.
        intro hmarks
        apply place?_finish_waiting seen hp.toSearchable
        apply Bool.eq_false_iff.mpr
        intro hwants
        rw [hordered.1 later.1 (List.mem_map_of_mem hlater) hwants] at hmarks
        cases hmarks

section

variable {start : Plant} {hold : Call} {asked : List (Call × Plant)} {o : Overlap}
  (h : o.Sound start hold asked)

include h

theorem Sound.stands_published : ∀ w ∈ o.waiting,
    w.Stands (o.waiting.foldl Waiting.publish (o.stopped.finish o.plant.unmark).2) := by
  obtain ⟨hfst, -, hserves⟩ := h.zip_served
  have hstopped := wellFormed_finish_stopped h.wellFormed o.stopped
  have hplaces := (finish_keeps_stopped h.wellFormed.toSearchable o.stopped).2
  have hplaces' := (publish_all_keeps hstopped.toSearchable o.waiting).2
  intro w hw
  have hfound : w.Stands o.plant.unmark := by
    rintro key index rfl
    have hmem := hw
    rw [← hfst] at hmem
    obtain ⟨entry, hentry, hwaits⟩ := List.mem_map.mp hmem
    have hserve := hserves entry hentry
    rw [hwaits] at hserve
    obtain ⟨w, call, met⟩ := entry
    cases hserve with
    | removing hplace => exact hplace
  -- Neither the stopped call nor the waiting updates move a leaf, so the place is still that of the
  -- key.
  refine hfound.after ?_
  intro hmarks key
  exact (hplaces' key).trans (hplaces (h.first w hw hmarks) key)

/-- Every started removal of an undeletable leaf is refused. -/
theorem Sound.refused {name : String} (hguards : o.plant.unmark.Guards name)
    (hreads : ∀ w ∈ o.waiting, w.ReadsOnly)
    (hhold : hold.Obeys (Plant.Granting .undeletable name))
    (hasked : ∀ ask ∈ asked, ask.1.Obeys (Plant.Granting .undeletable name))
    (during : List (Option Answer)) :
    ∀ part ∈ startedParts asked (o.finish during).started, part.call.Removes name →
      part.answer = .unit (.error .undeletable) := by
  obtain ⟨hfst, hserved⟩ := h.turns_served
  intro part hpart
  refine refused_turns _ h.wellFormed_published (hguards.after (h.effects_published hhold))
    ?_ ?_ ?_ ?_ ?_ part ((h.startedParts_turns during).subset hpart)
  · exact fun entry hentry => ⟨_, (hserved entry hentry).2.2⟩
  · exact fun entry hentry => h.stands_published entry.1 (hserved entry hentry).1
  · exact fun entry hentry => hreads entry.1 (hserved entry hentry).1
  · exact fun entry hentry => h.waiting_obeys hasked entry.1 (hserved entry hentry).1
  · rw [hfst]
    exact h.turns_ordered

end

end Overlap

end PlantStore
