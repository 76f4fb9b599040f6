import PlantStore.Proofs.Overlap.Sound

/-! # The order of the turns

The started calls are served in two passes, first those that stand on leaves and then those that
want the rights. So the calls have their turns in one order, in which no call is held up by one
that comes behind it. The plant that is left is the one to which the turns lead, and the answers
are those of the turns, put back into the order of starting. -/

namespace PlantStore

/-- The same started call, with another one that waits in its place. -/
def Started.map (f : Waiting → Waiting) : Started → Started
  | .waiting w => .waiting (f w)
  | .ended answer => .ended answer

theorem Started.map_id (started : List Started) : started.map (Started.map id) = started := by
  have hid : Started.map id = id := funext fun first => by cases first <;> rfl
  rw [hid, List.map_id]

/-- Waiting calls in the order of their turns. -/
def Waiting.turns (ws : List Waiting) : List Waiting :=
  ws.filter (fun w => !w.wantsRights) ++ ws.filter Waiting.wantsRights

theorem Waiting.mem_turns {w : Waiting} {ws : List Waiting} : w ∈ turns ws ↔ w ∈ ws := by
  rw [turns, List.mem_append, List.mem_filter, List.mem_filter]
  cases w.wantsRights <;> simp

namespace Overlap

/-! ### What stands beside the calls -/

section

variable {α : Type} (entries : List (Waiting × α))

/-- What stands beside the calls, in the order of their turns. -/
def inTurn : List (Waiting × α) :=
  entries.filter (fun entry => !entry.1.wantsRights) ++
    entries.filter fun entry => entry.1.wantsRights

theorem map_fst_inTurn : (inTurn entries).map Prod.fst = Waiting.turns (entries.map Prod.fst) := by
  rw [inTurn, Waiting.turns, List.map_append, List.filter_map, List.filter_map]
  rfl

/-- The turns do not depend on what stands beside the calls. -/
theorem inTurn_map {β : Type} (f : α → β) :
    inTurn (entries.map (Prod.map id f)) = (inTurn entries).map (Prod.map id f) := by
  rw [inTurn, inTurn, List.filter_map, List.filter_map, List.map_append]
  rfl

theorem mem_inTurn {entry : Waiting × α} : entry ∈ inTurn entries ↔ entry ∈ entries := by
  rw [inTurn, List.mem_append, List.mem_filter, List.mem_filter]
  cases entry.1.wantsRights <;> simp

theorem inTurn_perm : (inTurn entries).Perm entries := by
  refine List.perm_append_comm.trans ?_
  have hperm := List.filter_append_perm (fun entry : Waiting × α => entry.1.wantsRights) entries
  simpa using hperm

end

variable [KeyHash]

/-! ### Two passes -/

section

variable (seen p : Plant) (ws : List Waiting)

theorem serve_append (others : List Waiting) :
    serve seen p ((ws ++ others).map .waiting) =
      let first := serve seen p (ws.map .waiting)
      let second := serve seen first.2 (others.map .waiting)
      (first.1 ++ second.1, second.2) := by
  induction ws generalizing p with
  | nil => rfl
  | cons w ws ih =>
      show ((w.finish seen p).1 :: (serve seen (w.finish seen p).2 ((ws ++ others).map .waiting)).1,
        (serve seen (w.finish seen p).2 ((ws ++ others).map .waiting)).2) = _
      rw [ih]
      rfl

/-- The first pass leads to where the calls on leaves lead. -/
theorem plant_serveLeaves :
    (serveLeaves seen p (ws.map .waiting)).2 =
      (serve seen p ((ws.filter fun w => !w.wantsRights).map .waiting)).2 := by
  induction ws generalizing p with
  | nil => rfl
  | cons w ws ih =>
      rw [List.map_cons, serveLeaves, List.filter_cons]
      cases hw : w.wantsRights with
      | true => exact ih p
      | false => exact ih (w.finish seen p).2

/-- The second pass leads on to where the calls lead that want the rights. -/
theorem plant_serve_left (q : Plant) :
    (serve seen q (serveLeaves seen p (ws.map .waiting)).1).2 =
      (serve seen q ((ws.filter Waiting.wantsRights).map .waiting)).2 := by
  induction ws generalizing p q with
  | nil => rfl
  | cons w ws ih =>
      rw [List.map_cons, serveLeaves, List.filter_cons]
      cases hw : w.wantsRights with
      | true => exact ih p (w.finish seen q).2
      | false => exact ih (w.finish seen p).2 q

/-- Both passes together lead to where the turns lead. -/
theorem plant_serveAll :
    (serveAll seen p (ws.map .waiting)).2 =
      (serve seen p ((Waiting.turns ws).map .waiting)).2 := by
  rw [Waiting.turns, serve_append]
  show (serve seen (serveLeaves seen p (ws.map .waiting)).2
    (serveLeaves seen p (ws.map .waiting)).1).2 = _
  rw [plant_serve_left, plant_serveLeaves]

/-- After both passes the answers of either stand where its calls have stood. -/
theorem answers_serve_left (q : Plant) :
    let answers := (serve seen q (serveLeaves seen p (ws.map .waiting)).1).1
    answers.length = ws.length ∧
      ((ws.zip answers).filter fun entry => !entry.1.wantsRights).map Prod.snd =
        (serve seen p ((ws.filter fun w => !w.wantsRights).map .waiting)).1 ∧
      ((ws.zip answers).filter fun entry => entry.1.wantsRights).map Prod.snd =
        (serve seen q ((ws.filter Waiting.wantsRights).map .waiting)).1 := by
  induction ws generalizing p q with
  | nil => exact ⟨rfl, rfl, rfl⟩
  | cons w ws ih =>
      rw [List.map_cons, serveLeaves, List.filter_cons, List.filter_cons]
      cases hw : w.wantsRights with
      | true =>
          obtain ⟨hlength, hleaves, hrights⟩ := ih p (w.finish seen q).2
          refine ⟨congrArg (· + 1) hlength, ?_, ?_⟩
          · show (List.filter _ ((w, _) :: ws.zip _)).map Prod.snd = _
            rw [List.filter_cons_of_neg (by simp [hw])]
            exact hleaves
          · show (List.filter _ ((w, _) :: ws.zip _)).map Prod.snd = _
            rw [List.filter_cons_of_pos (by simp [hw])]
            exact congrArg ((w.finish seen q).1 :: ·) hrights
      | false =>
          obtain ⟨hlength, hleaves, hrights⟩ := ih (w.finish seen p).2 q
          refine ⟨congrArg (· + 1) hlength, ?_, ?_⟩
          · show (List.filter _ ((w, _) :: ws.zip _)).map Prod.snd = _
            rw [List.filter_cons_of_pos (by simp [hw])]
            exact congrArg ((w.finish seen p).1 :: ·) hleaves
          · show (List.filter _ ((w, _) :: ws.zip _)).map Prod.snd = _
            rw [List.filter_cons_of_neg (by simp [hw])]
            exact hrights

/-- The answers are those of the turns. -/
theorem answers_serveAll :
    (inTurn (ws.zip (serveAll seen p (ws.map .waiting)).1)).map Prod.snd =
      (serve seen p ((Waiting.turns ws).map .waiting)).1 := by
  obtain ⟨-, hleaves, hrights⟩ :=
    answers_serve_left seen p ws (serveLeaves seen p (ws.map .waiting)).2
  rw [Waiting.turns, serve_append, inTurn, List.map_append]
  refine congrArg₂ (· ++ ·) hleaves (hrights.trans ?_)
  rw [plant_serveLeaves]

/-- Calls that all want the rights are left for the second pass. -/
theorem serveAll_of_wantRights {ws : List Waiting} (h : ∀ w ∈ ws, w.wantsRights = true) :
    serveAll seen p (ws.map .waiting) = serve seen p (ws.map .waiting) := by
  have hleft : serveLeaves seen p (ws.map .waiting) = (ws.map .waiting, p) := by
    induction ws with
    | nil => rfl
    | cons w ws ih =>
        rw [List.map_cons, serveLeaves, if_pos (h w List.mem_cons_self),
          ih fun other hother => h other (List.mem_cons_of_mem _ hother)]
  rw [serveAll, hleft]

end

/-! ### A service that mirrors another -/

/-- Who still waits after the first pass has waited before. -/
theorem waiting_mem_of_serveLeaves {seen p : Plant} {started : List Started} {w : Waiting}
    (hw : .waiting w ∈ (serveLeaves seen p started).1) : .waiting w ∈ started := by
  induction started generalizing p with
  | nil => exact hw
  | cons first rest ih =>
      cases first with
      | ended answer =>
          rcases List.mem_cons.mp hw with hsame | hlater
          · cases hsame
          · exact List.mem_cons_of_mem _ (ih hlater)
      | waiting other =>
          rw [serveLeaves] at hw
          split at hw
          · rcases List.mem_cons.mp hw with hsame | hlater
            · exact hsame ▸ List.mem_cons_self
            · exact List.mem_cons_of_mem _ (ih hlater)
          · rcases List.mem_cons.mp hw with hsame | hlater
            · cases hsame
            · exact List.mem_cons_of_mem _ (ih hlater)

/-- A service on other plants, of other calls, and maybe under another hash, in which every call
does to the mirrored plant what the original does to the plant. -/
structure Mirrors (g : String → UInt32) (seen seen' : Plant) (call : Waiting → Waiting)
    (plant : Plant → Plant) (admits : Waiting → Prop) (keeps : Plant → Prop) : Prop where
  wantsRights (w : Waiting) : (call w).wantsRights = w.wantsRights
  finish {w : Waiting} {p : Plant} (hw : admits w) (hp : keeps p) :
    @Waiting.finish ⟨g⟩ seen' (plant p) (call w) =
      ((w.finish seen p).1, plant (w.finish seen p).2)
  keeps_finish {w : Waiting} {p : Plant} (hw : admits w) (hp : keeps p) :
    keeps (w.finish seen p).2

namespace Mirrors

variable {g : String → UInt32} {seen seen' : Plant} {call : Waiting → Waiting}
  {plant : Plant → Plant} {admits : Waiting → Prop} {keeps : Plant → Prop}
  (h : Mirrors g seen seen' call plant admits keeps)

include h

theorem serve {p : Plant} (hp : keeps p) {started : List Started}
    (hadmits : ∀ w, .waiting w ∈ started → admits w) :
    @Overlap.serve ⟨g⟩ seen' (plant p) (started.map (Started.map call)) =
      ((Overlap.serve seen p started).1, plant (Overlap.serve seen p started).2) := by
  induction started generalizing p with
  | nil => rfl
  | cons first rest ih =>
      have hrest := fun w hw => hadmits w (List.mem_cons_of_mem _ hw)
      cases first with
      | ended answer =>
          rw [List.map_cons, Started.map]
          unfold Overlap.serve
          rw [ih hp hrest]
      | waiting w =>
          have hw := hadmits w List.mem_cons_self
          rw [List.map_cons, Started.map]
          unfold Overlap.serve
          rw [h.finish hw hp]
          dsimp only
          rw [ih (h.keeps_finish hw hp) hrest]

theorem serveLeaves {p : Plant} (hp : keeps p) {started : List Started}
    (hadmits : ∀ w, .waiting w ∈ started → admits w) :
    @Overlap.serveLeaves ⟨g⟩ seen' (plant p) (started.map (Started.map call)) =
        ((Overlap.serveLeaves seen p started).1.map (Started.map call),
          plant (Overlap.serveLeaves seen p started).2) ∧
      keeps (Overlap.serveLeaves seen p started).2 := by
  induction started generalizing p with
  | nil => exact ⟨rfl, hp⟩
  | cons first rest ih =>
      have hrest := fun w hw => hadmits w (List.mem_cons_of_mem _ hw)
      cases first with
      | ended answer =>
          obtain ⟨hsame, hkept⟩ := ih hp hrest
          rw [List.map_cons, Started.map]
          unfold Overlap.serveLeaves
          rw [hsame]
          exact ⟨rfl, hkept⟩
      | waiting w =>
          have hw := hadmits w List.mem_cons_self
          rw [List.map_cons, Started.map]
          unfold Overlap.serveLeaves
          rw [h.wantsRights]
          split
          · obtain ⟨hsame, hkept⟩ := ih hp hrest
            rw [hsame]
            exact ⟨rfl, hkept⟩
          · obtain ⟨hsame, hkept⟩ := ih (h.keeps_finish hw hp) hrest
            rw [h.finish hw hp]
            dsimp only
            rw [hsame]
            exact ⟨rfl, hkept⟩

/-- The mirrored calls have the same turns and answer the same. -/
theorem serveAll {p : Plant} (hp : keeps p) {started : List Started}
    (hadmits : ∀ w, .waiting w ∈ started → admits w) :
    @Overlap.serveAll ⟨g⟩ seen' (plant p) (started.map (Started.map call)) =
      ((Overlap.serveAll seen p started).1, plant (Overlap.serveAll seen p started).2) := by
  obtain ⟨hleaves, hkept⟩ := h.serveLeaves hp hadmits
  unfold Overlap.serveAll
  rw [hleaves]
  exact h.serve hkept fun w hw => hadmits w (waiting_mem_of_serveLeaves hw)

end Mirrors

/-! ### Nobody is held up -/

section

variable {start : Plant} {hold : Call} {asked : List (Call × Plant)} {o : Overlap}
  (h : o.Sound start hold asked)

include h

/-- Only the first of the calls that want the rights can have marked the root. -/
theorem Sound.turns_ordered : (Waiting.turns o.waiting).Pairwise fun a b =>
    a.wantsRights = true → b.marksRoot = false := by
  have hleaf : ∀ a ∈ o.waiting.filter fun w => !w.wantsRights, a.wantsRights = false :=
    fun a ha => by simpa using (List.mem_filter.mp ha).2
  refine List.pairwise_append.mpr ⟨?_, h.ordered.filter _, ?_⟩
  · refine List.pairwise_of_forall_mem_list fun a ha b hb hwants => ?_
    rw [hleaf a ha] at hwants
    cases hwants
  · intro a ha b hb hwants
    rw [hleaf a ha] at hwants
    cases hwants

/-- At its turn no call is held up by one whose turn comes later. -/
theorem Sound.turns_not_held_up :
    (Waiting.turns o.waiting).Pairwise fun first later => later.holdsUp first = false := by
  have hrights : (o.waiting.filter Waiting.wantsRights).Pairwise fun a b =>
      b.holdsUp a = false := by
    refine (h.ordered.filter _).imp_of_mem fun {a b} ha hb hab => ?_
    have hwants : a.wantsRights = true := (List.mem_filter.mp ha).2
    have hwants' : b.wantsRights = true := (List.mem_filter.mp hb).2
    rw [Waiting.holdsUp, hwants, hwants', hab hwants]
    rfl
  refine List.pairwise_append.mpr ⟨?_, hrights, ?_⟩
  · refine List.pairwise_of_forall_mem_list fun a ha b hb => ?_
    have hleaf : a.wantsRights = false := by simpa using (List.mem_filter.mp ha).2
    rw [Waiting.holdsUp, hleaf, Bool.false_and]
  · intro a ha b hb
    have hleaf : a.wantsRights = false := by simpa using (List.mem_filter.mp ha).2
    rw [Waiting.holdsUp, hleaf, Bool.false_and]

end

end Overlap

/-- A change of flags, started behind two removals, holds the link lock of the leaf before the one
that is to go first. -/
example :
    let p := ((Plant.make 7 false).run [.set "a" .int [.int 1], .set "b" .int [.int 2]]).1
    let script : List Step :=
      [.start (.delete "a"), .start (.delete "b"), .start (.setFlags "b" .undeletable)]
    (Overlap.run p (.set "b" .int [.int 5]) script).started =
      [.unit (.ok ()), .unit (.error .undeletable), .unit (.ok ())] := rfl

end PlantStore
