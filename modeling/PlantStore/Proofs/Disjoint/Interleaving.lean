import PlantStore.Proofs.Disjoint.Edit
import PlantStore.Proofs.Reachable

/-! # Calls on disjoint keys

Two lists of calls that name no common leaf do not notice each other. However they are
interleaved, each call answers what it answers if its list is run alone, every leaf ends as its
own list leaves it, and of the order of the chain all that can differ is how the leaves of the one
list stand to those of the other. Both are seen by comparing the interleaving with the run of one
list alone: a call of that list does the same in both, and one of the other is not noticed. -/

namespace PlantStore

/-! ### Interleavings -/

/-- To which of two lists a call belongs. -/
inductive Side
  | left | right
  deriving DecidableEq

/-- What belongs to one side, in its order. -/
def Side.pick {α : Type} (side : Side) (entries : List (Side × α)) : List α :=
  entries.filterMap fun entry => if entry.1 = side then some entry.2 else none

theorem Side.pick_cons_self {α : Type} (side : Side) (a : α) (rest : List (Side × α)) :
    side.pick ((side, a) :: rest) = a :: side.pick rest := by
  simp [pick]

theorem Side.pick_cons_of_ne {α : Type} {side other : Side} (h : other ≠ side) (a : α)
    (rest : List (Side × α)) : side.pick ((other, a) :: rest) = side.pick rest := by
  simp [pick, h]

/-- The calls of two lists in one order that keeps the order of each. -/
structure Interleaves (A B : List Call) (merged : List (Side × Call)) : Prop where
  left : Side.left.pick merged = A
  right : Side.right.pick merged = B

/-- The names of the leaves that calls are about. -/
def leafNames (calls : List Call) : List String := calls.filterMap Call.leaf?

theorem mem_leafNames {calls : List Call} {call : Call} {key : String} (hcall : call ∈ calls)
    (hkey : call.key? = some key) : leafName key ∈ leafNames calls := by
  refine List.mem_filterMap.mpr ⟨call, hcall, ?_⟩
  rw [Call.leaf?, hkey]
  rfl

/-- A call of an interleaving is in the list of its side. -/
theorem Side.mem_pick {α : Type} {side : Side} {a : α} {entries : List (Side × α)}
    (h : (side, a) ∈ entries) : a ∈ side.pick entries :=
  List.mem_filterMap.mpr ⟨(side, a), h, if_pos rfl⟩

/-- The calls of a side are those that are about no leaf of the other. -/
theorem Interleaves.keyed {A B : List Call} {merged : List (Side × Call)}
    (h : Interleaves A B merged) (hA : ∀ call ∈ A, call.key?.isSome)
    (hB : ∀ call ∈ B, call.key?.isSome) (hdisjoint : (leafNames A).Disjoint (leafNames B)) :
    ∀ entry ∈ merged, ∃ key, entry.2.key? = some key ∧
      decide (leafName key ∉ leafNames B) = decide (entry.1 = .left) ∧
      decide (leafName key ∉ leafNames A) = decide (entry.1 = .right) := by
  rintro ⟨side, call⟩ hentry
  have hmem := Side.mem_pick hentry
  cases side with
  | left =>
      rw [h.left] at hmem
      obtain ⟨key, hkey⟩ := Option.isSome_iff_exists.mp (hA call hmem)
      have hin := mem_leafNames hmem hkey
      have hout : leafName key ∉ leafNames B := fun hother => hdisjoint hin hother
      exact ⟨key, hkey, by simp [hout], by simp [hin]⟩
  | right =>
      rw [h.right] at hmem
      obtain ⟨key, hkey⟩ := Option.isSome_iff_exists.mp (hB call hmem)
      have hin := mem_leafNames hmem hkey
      have hout : leafName key ∉ leafNames A := fun hother => hdisjoint hother hin
      exact ⟨key, hkey, by simp [hin], by simp [hout]⟩

namespace Plant

section

variable [KeyHash]

/-- The plant that an interleaving leads to. -/
def merge (p : Plant) (merged : List (Side × Call)) : Plant := (p.run (merged.map Prod.snd)).1

/-- The answers to the calls of one side. -/
def answersOf (p : Plant) (side : Side) (merged : List (Side × Call)) : List Answer :=
  side.pick ((merged.map Prod.fst).zip
    ((p.run (merged.map Prod.snd)).2.map Outcome.answer))

/-- The answers to a list of calls. -/
def answers (p : Plant) (calls : List Call) : List Answer := (p.run calls).2.map Outcome.answer

/-! ### One call -/

section

variable {kind : String → Bool} {p q : Plant} {call : Call} {key : String}

/-- A call about one leaf does not free the plant. -/
theorem isDefunct_of_key? (hp : p.Searchable) (hd : p.isDefunct = false)
    (hkey : call.key? = some key) : (p.perform call).plant.isDefunct = false := by
  obtain ⟨answer, e, hall⟩ := decided_perform hkey (p.find? key)
  obtain ⟨he, -, hplant⟩ := hall p hp hd rfl
  rw [hplant, isDefunct_edit he]
  exact hd

/-- A call about a leaf of another kind is not noticed. -/
theorem agree_perform (hp : p.Searchable) (hd : p.isDefunct = false) (hkey : call.key? = some key)
    (hkind : kind (leafName key) = false) : Agree kind p (p.perform call).plant := by
  obtain ⟨answer, e, hall⟩ := decided_perform hkey (p.find? key)
  obtain ⟨he, -, hplant⟩ := hall p hp hd rfl
  rw [hplant]
  exact agree_edit hkind he p hp.root_name

/-- A call about a leaf of this kind does the same to both. -/
theorem Agree.perform (h : Agree kind p q) (hp : p.Searchable) (hq : q.Searchable)
    (hdp : p.isDefunct = false) (hdq : q.isDefunct = false) (hkey : call.key? = some key)
    (hkind : kind (leafName key) = true) :
    (q.perform call).answer = (p.perform call).answer ∧
      Agree kind (p.perform call).plant (q.perform call).plant := by
  have hfind := h.find? hp hq (hdq.trans hdp.symm) hkind
  obtain ⟨answer, e, hall⟩ := decided_perform hkey (p.find? key)
  obtain ⟨he, ha, hplant⟩ := hall p hp hdp rfl
  obtain ⟨-, ha', hplant'⟩ := hall q hq hdq hfind
  rw [ha, ha', hplant, hplant']
  exact ⟨rfl, h.edit he⟩

end

/-! ### All calls -/

/-- On the leaves of its own kind a side does in an interleaving what it does alone. -/
theorem WellFormed.agree_merge {p q : Plant} (hp : p.WellFormed) (hq : q.WellFormed)
    (hdp : p.isDefunct = false) (hdq : q.isDefunct = false) (kind : String → Bool) (side : Side)
    (h : Agree kind p q) {merged : List (Side × Call)}
    (hkeyed : ∀ entry ∈ merged, ∃ key, entry.2.key? = some key ∧
      kind (leafName key) = decide (entry.1 = side)) :
    q.answersOf side merged = p.answers (side.pick merged) ∧
      Agree kind (p.run (side.pick merged)).1 (q.merge merged) ∧
      (q.merge merged).WellFormed ∧ (q.merge merged).isDefunct = false := by
  induction merged generalizing p q with
  | nil => exact ⟨rfl, h, hq, hdq⟩
  | cons entry rest ih =>
      obtain ⟨owner, call⟩ := entry
      obtain ⟨key, hkey, hkind⟩ := hkeyed _ List.mem_cons_self
      have hrest : ∀ entry ∈ rest, ∃ key, entry.2.key? = some key ∧
          kind (leafName key) = decide (entry.1 = side) := fun entry hentry =>
        hkeyed entry (List.mem_cons_of_mem _ hentry)
      have hq' := hq.perform call
      have hdq' := isDefunct_of_key? hq.toSearchable hdq hkey
      have hanswers : q.answersOf side ((owner, call) :: rest) =
          side.pick ((owner, (q.perform call).answer) ::
            (rest.map Prod.fst).zip ((q.perform call).plant.answers (rest.map Prod.snd))) := rfl
      have hmerge : q.merge ((owner, call) :: rest) = (q.perform call).plant.merge rest := rfl
      rw [hmerge, hanswers]
      -- A call of this side does the same on both plants; one of the other is not noticed.
      by_cases howner : owner = side
      · subst howner
        obtain ⟨ha, hagree⟩ := h.perform hp.toSearchable hq.toSearchable hdp hdq hkey
          (hkind.trans (decide_eq_true rfl))
        have hdp' := isDefunct_of_key? hp.toSearchable hdp hkey
        obtain ⟨hlater, hend⟩ := ih (hp.perform call) hq' hdp' hdq' hagree hrest
        rw [Side.pick_cons_self, Side.pick_cons_self, ha]
        exact ⟨congrArg _ hlater, hend⟩
      · have hframe := agree_perform hq.toSearchable hdq hkey
          (hkind.trans (decide_eq_false howner))
        rw [Side.pick_cons_of_ne howner, Side.pick_cons_of_ne howner]
        exact ih hp hq' hdp hdq' (h.trans hframe) hrest

/-- Two plants that agree on two kinds which together are all have the same leaf under every
key. -/
theorem find?_of_agree {left right : String → Bool} {p q : Plant} (hp : p.Searchable)
    (hq : q.Searchable) (hd : q.isDefunct = p.isDefunct) (hleft : Agree left p q)
    (hright : Agree right p q) (hboth : ∀ name, left name = true ∨ right name = true)
    (key : String) : q.find? key = p.find? key := by
  rcases hboth (leafName key) with hkind | hkind
  · exact hleft.find? hp hq hd hkind
  · exact hright.find? hp hq hd hkind

/-- A key under which two plants have the same leaf is seen alike in both. -/
theorem view_of_find? {p q : Plant} {key : String} (h : q.find? key = p.find? key) :
    q.view key = p.view key := by
  have hsize : q.elementSize key = p.elementSize key := by
    funext index
    simp only [elementSize, askOr, h]
  simp only [view, seedOf, flagsOf, numElements, getAll, hostWordOf, ask, askOr, h, hsize]

/-- What an interleaving does is what either list does alone. -/
theorem WellFormed.merge_of_disjoint {p : Plant} (hp : p.WellFormed) (hd : p.isDefunct = false)
    {A B : List Call} (hA : ∀ call ∈ A, call.key?.isSome) (hB : ∀ call ∈ B, call.key?.isSome)
    (hdisjoint : (leafNames A).Disjoint (leafNames B)) {merged : List (Side × Call)}
    (h : Interleaves A B merged) :
    (p.answersOf .left merged = p.answers A ∧ p.answersOf .right merged = p.answers B) ∧
      Agree (fun name => name ∉ leafNames B) (p.run A).1 (p.merge merged) ∧
      Agree (fun name => name ∉ leafNames A) (p.run B).1 (p.merge merged) ∧
      (p.merge merged).WellFormed ∧ (p.merge merged).isDefunct = false := by
  have hkeyed := h.keyed hA hB hdisjoint
  obtain ⟨haleft, hleft, hwf, hlive⟩ :=
    hp.agree_merge hp hd hd (fun name => name ∉ leafNames B) .left (.refl _ p)
      fun entry hentry => (hkeyed entry hentry).imp fun _ hkey => ⟨hkey.1, hkey.2.1⟩
  obtain ⟨haright, hright, -⟩ :=
    hp.agree_merge hp hd hd (fun name => name ∉ leafNames A) .right (.refl _ p)
      fun entry hentry => (hkeyed entry hentry).imp fun _ hkey => ⟨hkey.1, hkey.2.2⟩
  rw [h.left] at haleft hleft
  rw [h.right] at haright hright
  exact ⟨⟨haleft, haright⟩, hleft, hright, hwf, hlive⟩

/-- Calls on disjoint leaves can be made in any order. Each call answers the same in all
interleavings of the two lists, which is what it answers if its own list is run alone, and every
key has the same leaf in the end. The leaves that the one list names stand in the same order to
each other and to those that neither names. -/
theorem disjoint_work_commutes {p : Plant} (h : p.Reachable) (hd : p.isDefunct = false)
    {A B : List Call} (hA : ∀ call ∈ A, call.key?.isSome) (hB : ∀ call ∈ B, call.key?.isSome)
    (hdisjoint : (leafNames A).Disjoint (leafNames B)) {C D : List (Side × Call)}
    (hC : Interleaves A B C) (hD : Interleaves A B D) :
    (p.answersOf .left C = p.answersOf .left D ∧ p.answersOf .left C = p.answers A) ∧
    (p.answersOf .right C = p.answersOf .right D ∧ p.answersOf .right C = p.answers B) ∧
    (∀ key, (p.merge C).find? key = (p.merge D).find? key ∧
      (p.merge C).view key = (p.merge D).view key) ∧
    ((p.merge C).chain.filter (fun leaf => leaf.name ∉ leafNames B) =
      (p.merge D).chain.filter fun leaf => leaf.name ∉ leafNames B) ∧
    ((p.merge C).chain.filter (fun leaf => leaf.name ∉ leafNames A) =
      (p.merge D).chain.filter fun leaf => leaf.name ∉ leafNames A) := by
  have hp := h.wellFormed
  obtain ⟨⟨haC, hbC⟩, hleftC, hrightC, hwfC, hdC⟩ := hp.merge_of_disjoint hd hA hB hdisjoint hC
  obtain ⟨⟨haD, hbD⟩, hleftD, hrightD, hwfD, hdD⟩ := hp.merge_of_disjoint hd hA hB hdisjoint hD
  have hleft := hleftD.symm.trans hleftC
  have hright := hrightD.symm.trans hrightC
  -- No name is in both lists, so each key has a leaf of one kind or the other.
  have hboth (name : String) :
      decide (name ∉ leafNames B) = true ∨ decide (name ∉ leafNames A) = true := by
    by_cases hname : name ∈ leafNames B
    · exact .inr (decide_eq_true fun hother => hdisjoint hother hname)
    · exact .inl (decide_eq_true hname)
  refine ⟨⟨haC.trans haD.symm, haC⟩, ⟨hbC.trans hbD.symm, hbC⟩, fun key => ?_, hleft.chain,
    hright.chain⟩
  have hfind := find?_of_agree hwfD.toSearchable hwfC.toSearchable (hdC.trans hdD.symm) hleft
    hright hboth key
  exact ⟨hfind, view_of_find? hfind⟩

end

/-- Each list makes a leaf again, and one is refused what it asks. The two new leaves stand as the
interleaving has made them, each as it would stand alone. -/
theorem disjoint_work_commutes_of_remade :
    let p := ((Plant.make 7 false).perform (.set "b" .int [.int 2])).plant
    let a₁ := Call.set "a" .int [.int 1]
    let a₂ := Call.delete "a"
    let a₃ := Call.set "a" .int [.int 3]
    let b₁ := Call.set "b" .boolean [.boolean true]
    let b₂ := Call.delete "b"
    let b₃ := Call.set "b" .int [.int 4]
    let b₄ := Call.setFlags "" .undeletable
    let C := [(Side.left, a₁), (.left, a₂), (.left, a₃), (.right, b₁), (.right, b₂), (.right, b₃),
      (.right, b₄)]
    let D := [(Side.right, b₁), (.left, a₁), (.right, b₂), (.right, b₃), (.left, a₂), (.right, b₄),
      (.left, a₃)]
    p.Reachable ∧ p.isDefunct = false ∧
      (leafNames [a₁, a₂, a₃]).Disjoint (leafNames [b₁, b₂, b₃, b₄]) ∧
      Interleaves [a₁, a₂, a₃] [b₁, b₂, b₃, b₄] C ∧ Interleaves [a₁, a₂, a₃] [b₁, b₂, b₃, b₄] D ∧
      (p.merge C).names = ["type", "b", "a"] ∧ (p.merge D).names = ["type", "a", "b"] ∧
      p.answersOf .right C = p.answersOf .right D ∧
      (p.merge C).find? "a" = (p.merge D).find? "a" ∧
      (p.merge C).find? "type" = (p.merge D).find? "type" := by
  intro p a₁ a₂ a₃ b₁ b₂ b₃ b₄ C D
  have hp : p.Reachable := .call (.make 7 false) _
  have hd : p.isDefunct = false := by decide +kernel
  have hother : ∀ name ∈ leafNames [a₁, a₂, a₃], name ∉ leafNames [b₁, b₂, b₃, b₄] := by
    decide +kernel
  have hdisjoint : (leafNames [a₁, a₂, a₃]).Disjoint (leafNames [b₁, b₂, b₃, b₄]) :=
    fun name hname => hother name hname
  have hC : Interleaves [a₁, a₂, a₃] [b₁, b₂, b₃, b₄] C := ⟨rfl, rfl⟩
  have hD : Interleaves [a₁, a₂, a₃] [b₁, b₂, b₃, b₄] D := ⟨rfl, rfl⟩
  obtain ⟨-, hanswers, hsame, -⟩ := disjoint_work_commutes hp hd
    (A := [a₁, a₂, a₃]) (B := [b₁, b₂, b₃, b₄]) (by simp [a₁, a₂, a₃, Call.key?])
    (by simp [b₁, b₂, b₃, b₄, Call.key?]) hdisjoint hC hD
  exact ⟨hp, hd, hdisjoint, hC, hD, by decide +kernel, by decide +kernel, hanswers.1,
    (hsame "a").1, (hsame "type").1⟩

end Plant
end PlantStore
