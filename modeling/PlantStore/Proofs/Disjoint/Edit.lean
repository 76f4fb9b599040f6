import PlantStore.Proofs.WellFormed

/-! # Calls about one leaf

A call with a key finds one leaf, or finds that there is none. This alone decides what it answers
and what it does, and it does it to the leaf of that name. So the call is noticed by those who ask
for this leaf and by nobody else, and two plants that agree on the leaf take the same effect. -/

namespace PlantStore

/-- The key of a call about one leaf. -/
def Call.key? : Call → Option String
  | set key .. | get key _ | getAs _ key | getAll key | probe key _ | numElements key
  | elementSize key _ | seedOf key | flagsOf key | setFlags key _ | hostWordOf key
  | setHostWord key _ | has key | delete key => some key
  | free | keys | length | isEmpty | isDefunct | isDebug | type | views | exported _
  | describe => none

/-- The name of the leaf that a call is about. -/
def Call.leaf? (call : Call) : Option String := call.key?.map leafName

/-- What can be done to the leaf of a name. -/
inductive Edit
  | keep
  | change (f : Leaf → Leaf)
  | link (leaf : Leaf)
  | remove

/-- A change is one of content, a new leaf has the name, and it is not the root that is removed. -/
inductive Edit.Fits (name : String) : Edit → Prop
  | keep : Fits name .keep
  | change {f : Leaf → Leaf} (hf : Leaf.IsContent f) : Fits name (.change f)
  | link {leaf : Leaf} (hname : leaf.name = name) : Fits name (.link leaf)
  | remove (hroot : name ≠ rootKey) : Fits name .remove

namespace Plant

/-- The plant after an edit of the leaf of a name. -/
def edit (p : Plant) (name : String) : Edit → Plant
  | .keep => p
  | .change f => p.alter name f
  | .link leaf => p.link leaf
  | .remove => p.without name

/-- An edit does not free a plant. -/
theorem isDefunct_edit {name : String} {e : Edit} (h : e.Fits name) (p : Plant) :
    (p.edit name e).isDefunct = p.isDefunct := by
  cases h with
  | change hf => exact isDefunct_alter p name hf
  | _ => rfl

/-! ### Agreement -/

/-- Two plants have the same leaves of some kind of names, and in the same order. -/
structure Agree (kind : String → Bool) (p q : Plant) : Prop where
  root : kind rootKey = true → q.root = p.root
  chain : q.chain.filter (fun leaf => kind leaf.name) = p.chain.filter fun leaf => kind leaf.name

section

variable {kind : String → Bool} {p q r : Plant}

theorem Agree.refl (kind : String → Bool) (p : Plant) : Agree kind p p := ⟨fun _ => rfl, rfl⟩

theorem Agree.symm (h : Agree kind p q) : Agree kind q p :=
  ⟨fun hroot => (h.root hroot).symm, h.chain.symm⟩

theorem Agree.trans (h : Agree kind p q) (h' : Agree kind q r) : Agree kind p r :=
  ⟨fun hroot => (h'.root hroot).trans (h.root hroot), h'.chain.trans h.chain⟩

/-- A change of content keeps the kind of every name. -/
theorem filter_alter {f : Leaf → Leaf} (hf : Leaf.IsContent f) (name : String)
    (chain : List Leaf) :
    (chain.map (Leaf.alter name f)).filter (fun leaf => kind leaf.name) =
      (chain.filter fun leaf => kind leaf.name).map (Leaf.alter name f) := by
  rw [List.filter_map]
  congr 1
  refine List.filter_congr fun leaf _ => ?_
  show kind (leaf.alter name f).name = kind leaf.name
  rw [(hf.alter name).name]

/-- An edit under a name of another kind is not noticed. -/
theorem agree_edit {name : String} (hname : kind name = false) {e : Edit} (he : e.Fits name)
    (p : Plant) (hroot : p.root.name = rootKey) : Agree kind p (p.edit name e) := by
  have hother : ∀ leaf : Leaf, kind leaf.name = true → leaf.name ≠ name := by
    rintro leaf hkind rfl
    rw [hname] at hkind
    cases hkind
  cases he with
  | keep => exact .refl kind p
  | @change f hf =>
      refine ⟨fun hkind => Leaf.alter_of_ne (hother p.root (hroot ▸ hkind)), ?_⟩
      refine (filter_alter hf name p.chain).trans (map_alter_of_forall_ne fun leaf hleaf => ?_)
      exact hother leaf (List.mem_filter.mp hleaf).2
  | @link leaf hleaf =>
      refine ⟨fun _ => rfl, List.filter_cons_of_neg ?_⟩
      rw [hleaf, hname]
      exact Bool.false_ne_true
  | remove =>
      refine ⟨fun _ => rfl, ?_⟩
      show ((p.chain.filter fun leaf => leaf.name != name).filter fun leaf => kind leaf.name) = _
      rw [List.filter_filter]
      refine List.filter_congr fun leaf _ => ?_
      cases hkind : kind leaf.name with
      | false => rfl
      | true => simpa using hother leaf hkind

/-- An edit under a name of this kind is the same for both. -/
theorem Agree.edit (h : Agree kind p q) {name : String} {e : Edit} (he : e.Fits name) :
    Agree kind (p.edit name e) (q.edit name e) := by
  cases he with
  | keep => exact h
  | @change f hf =>
      refine ⟨fun hkind => congrArg (Leaf.alter name f) (h.root hkind), ?_⟩
      exact (filter_alter hf name q.chain).trans
        ((congrArg _ h.chain).trans (filter_alter hf name p.chain).symm)
  | @link leaf hleaf =>
      refine ⟨h.root, ?_⟩
      show (leaf :: q.chain).filter _ = (leaf :: p.chain).filter _
      rw [List.filter_cons, List.filter_cons, h.chain]
  | remove =>
      have hswap : ∀ chain : List Leaf,
          ((chain.filter fun leaf => leaf.name != name).filter fun leaf => kind leaf.name) =
            (chain.filter fun leaf => kind leaf.name).filter fun leaf => leaf.name != name := by
        intro chain
        rw [List.filter_filter, List.filter_filter]
        exact List.filter_congr fun leaf _ => Bool.and_comm _ _
      refine ⟨h.root, ?_⟩
      exact (hswap q.chain).trans ((congrArg _ h.chain).trans (hswap p.chain).symm)

end

variable [KeyHash]

/-! ### What a call finds -/

section

variable {kind : String → Bool} {p q : Plant}

omit [KeyHash] in
theorem Agree.mem_leaves (h : Agree kind p q) (hroot : p.root.name = rootKey) {leaf : Leaf}
    (hkind : kind leaf.name = true) (hleaf : leaf ∈ p.leaves) : leaf ∈ q.leaves := by
  rcases List.mem_cons.mp hleaf with rfl | hchain
  · rw [← h.root (hroot ▸ hkind)]
    exact List.mem_cons_self
  · have hmem : leaf ∈ p.chain.filter fun leaf => kind leaf.name :=
      List.mem_filter.mpr ⟨hchain, hkind⟩
    rw [← h.chain] at hmem
    exact List.mem_cons_of_mem _ (List.mem_filter.mp hmem).1

/-- Under a name on which two plants agree the same leaf is found. -/
theorem Agree.find? (h : Agree kind p q) (hp : p.Searchable) (hq : q.Searchable)
    (hd : q.isDefunct = p.isDefunct) {key : String} (hkey : kind (leafName key) = true) :
    q.find? key = p.find? key := by
  apply Option.ext
  intro leaf
  rw [hq.find?_eq_some_iff, hp.find?_eq_some_iff, hd]
  constructor
  · rintro ⟨hlive, hleaf, hname⟩
    exact ⟨hlive, h.symm.mem_leaves hq.root_name (hname ▸ hkey) hleaf, hname⟩
  · rintro ⟨hlive, hleaf, hname⟩
    exact ⟨hlive, h.mem_leaves hp.root_name (hname ▸ hkey) hleaf, hname⟩

end

/-! ### What a call does -/

/-- A removal goes by the leaf that it finds. -/
theorem Searchable.delete_of_find? {p : Plant} (h : p.Searchable) {key : String} {leaf : Leaf}
    (hfind : p.find? key = some leaf) (hkey : leafName key ≠ rootKey) :
    (leaf.isUndeletable = true ∧ (p.delete key).answer = .error .undeletable ∧
      (p.delete key).plant = p) ∨
    (leaf.isUndeletable = false ∧ (p.delete key).answer = .ok () ∧
      (p.delete key).plant = p.without (leafName key)) := by
  obtain ⟨hd, hmem, hname⟩ := h.find?_eq_some_iff.mp hfind
  have hchain : leaf ∈ p.chain := by
    rcases List.mem_cons.mp hmem with rfl | hchain
    · exact absurd (hname.symm.trans h.root_name) hkey
    · exact hchain
  obtain ⟨index, hindex⟩ := List.getElem?_of_mem hchain
  have hplace := h.place?_eq_link_iff.mpr ⟨hd, leaf, hindex, hname⟩
  rw [delete_of_link hplace, reportDeleted_answer, reportDeleted_plant]
  cases hu : leaf.isUndeletable with
  | true =>
      have hremoval : p.removeAt index = ⟨.error .undeletable, p, []⟩ := by
        rw [removeAt, hindex]
        exact if_pos hu
      rw [hremoval]
      exact .inl ⟨rfl, rfl, rfl⟩
  | false =>
      have hremoval : p.removeAt index =
          ⟨.ok (), { p with chain := p.chain.eraseIdx index }, [.unlinked leaf.name]⟩ := by
        rw [removeAt, hindex]
        exact if_neg (Bool.eq_false_iff.mp hu)
      rw [hremoval, h.eraseIdx_chain hindex, hname]
      exact .inr ⟨rfl, rfl, rfl⟩

/-- The root is not removed, nor is a leaf that is not there. -/
theorem Searchable.delete_of_none {p : Plant} (h : p.Searchable) {key : String}
    (hnone : leafName key = rootKey ∨ p.find? key = none) :
    (p.delete key).answer = .error .noSuchLeaf ∧ (p.delete key).plant = p := by
  rw [delete]
  cases hplace : p.place? key with
  | none => exact ⟨rfl, rfl⟩
  | some place =>
      cases place with
      | root => exact ⟨rfl, rfl⟩
      | link index =>
          obtain ⟨hd, leaf, hleaf, hname⟩ := h.place?_eq_link_iff.mp hplace
          have hmem := List.mem_of_getElem? hleaf
          rcases hnone with hkey | hfind
          · exact absurd (hname.trans hkey) (h.chain_name leaf hmem)
          · exact absurd hname (h.ne_of_find?_none hd hfind leaf (List.mem_cons_of_mem _ hmem))

/-- A value of a fixed kind is asked of one leaf, too. -/
theorem getAs_eq_ask (p : Plant) (kind : ValueKind) (key : String) :
    p.getAs kind key = p.ask key fun leaf => (leaf.valueAt 0).bind fun v =>
      if v.kind = kind then .ok v else .error .wrongSeedType := by
  rw [getAs, get, ask, ask]
  cases p.find? key with
  | none => rfl
  | some leaf =>
      dsimp only
      cases leaf.valueAt 0 <;> rfl

/-- What a call finds under its key decides what it answers and which edit it makes. -/
def Decided (key : String) (found : Option Leaf) {α : Type} (call : Plant → Outcome α) : Prop :=
  ∃ (answer : α) (e : Edit), ∀ p : Plant, p.Searchable → p.isDefunct = false →
    p.find? key = found →
      e.Fits (leafName key) ∧ (call p).answer = answer ∧ (call p).plant = p.edit (leafName key) e

theorem Decided.map {key : String} {found : Option Leaf} {α β : Type}
    {call : Plant → Outcome α} (h : Decided key found call) (f : α → β) :
    Decided key found fun p => (call p).map f := by
  obtain ⟨answer, e, hall⟩ := h
  refine ⟨f answer, e, fun p hp hd hfind => ?_⟩
  obtain ⟨he, ha, hplant⟩ := hall p hp hd hfind
  exact ⟨he, congrArg f ha, hplant⟩

section

variable (key : String) (found : Option Leaf)

theorem decided_set (seed : Seed) (values : List Value) :
    Decided key found fun p => p.set key seed values := by
  cases found with
  | none =>
      cases hencode : Element.encodeAll seed values with
      | error cause =>
          exact ⟨.error cause, .keep, fun p _ hd hfind =>
            ⟨.keep, set_of_encodeAll_error hd hfind hencode⟩⟩
      | ok elements =>
          refine ⟨.ok (), .link (.create key seed elements), fun p hp hd hfind => ?_⟩
          have hnone := hp.ne_of_find?_none hd hfind
          have hname : leafName key = key := by
            rw [leafName]
            split
            next hempty =>
              exact absurd (hp.root_name.trans (if_pos hempty).symm)
                (hnone p.root List.mem_cons_self)
            next => rfl
          exact ⟨.link ((Leaf.name_create ..).trans hname.symm),
            set_of_encodeAll_ok hd hfind hencode⟩
  | some leaf =>
      -- Whether the leaf is the root is told by the key alone, so the rules are decided before the
      -- plant is known.
      cases hr : renewal (leafName key == rootKey) leaf seed values with
      | error cause =>
          refine ⟨.error cause, .keep, fun p hp hd hfind => ⟨.keep, ?_⟩⟩
          obtain ⟨ha, hplant⟩ := set_of_find?_some hd hfind seed values
          rw [← hp.place?_beq_root hd] at hr
          rw [ha, hplant, updateNow_of_refused hfind hr]
          exact ⟨rfl, rfl⟩
      | ok elements =>
          refine ⟨.ok (), .change fun leaf => { leaf with elements := elements },
            fun p hp hd hfind => ⟨.change (Leaf.isContent_elements elements), ?_⟩⟩
          obtain ⟨ha, hplant⟩ := set_of_find?_some hd hfind seed values
          rw [← hp.place?_beq_root hd] at hr
          rw [ha, hplant, updateNow_of_renewal hfind hr]
          exact ⟨rfl, hp.modify_eq_alter hd key _⟩

theorem decided_change {f : Leaf → Leaf} (hf : Leaf.IsContent f) :
    Decided key found fun p => p.change key f := by
  cases found with
  | none =>
      refine ⟨.error .noSuchLeaf, .keep, fun p hp hd hfind => ⟨.keep, ?_⟩⟩
      dsimp only
      rw [change, has_eq_false_iff.mpr hfind]
      exact ⟨rfl, rfl⟩
  | some leaf =>
      refine ⟨.ok (), .change f, fun p hp hd hfind => ⟨.change hf, ?_⟩⟩
      dsimp only
      rw [change, has_eq_true_iff.mpr ⟨leaf, hfind⟩]
      exact ⟨rfl, hp.modify_eq_alter hd key f⟩

theorem decided_delete : Decided key found fun p => p.delete key := by
  by_cases hroot : leafName key = rootKey
  · exact ⟨.error .noSuchLeaf, .keep, fun p hp hd hfind =>
      ⟨.keep, hp.delete_of_none (.inl hroot)⟩⟩
  cases found with
  | none =>
      exact ⟨.error .noSuchLeaf, .keep, fun p hp hd hfind =>
        ⟨.keep, hp.delete_of_none (.inr hfind)⟩⟩
  | some leaf =>
      cases hu : leaf.isUndeletable with
      | true =>
          refine ⟨.error .undeletable, .keep, fun p hp hd hfind => ⟨.keep, ?_⟩⟩
          rcases hp.delete_of_find? hfind hroot with ⟨-, hrefused⟩ | ⟨hnot, -⟩
          · exact hrefused
          · simp [hu] at hnot
      | false =>
          refine ⟨.ok (), .remove, fun p hp hd hfind => ⟨.remove hroot, ?_⟩⟩
          rcases hp.delete_of_find? hfind hroot with ⟨hyes, -⟩ | ⟨-, hdone⟩
          · simp [hu] at hyes
          · exact hdone

/-- A question keeps the plant, and asks for nothing but the leaf. -/
theorem decided_answering {α : Type} (question : Option Leaf → α) (events : Plant → List Event)
    {answer : Plant → α} (h : ∀ p : Plant, answer p = question (p.find? key)) :
    Decided key found fun p => p.answering (answer p) (events p) :=
  ⟨question found, .keep, fun p _ _ hfind => ⟨.keep, (h p).trans (congrArg question hfind), rfl⟩⟩

theorem decided_ask {α β : Type} (f : Result α → β) (question : Leaf → Result α)
    (events : Plant → List Event) :
    Decided key found fun p => p.answering (f (p.ask key question)) (events p) := by
  refine decided_answering key found (fun found => f (found.elim (.error .noSuchLeaf) question))
    events fun p => ?_
  rw [ask]
  cases p.find? key <;> rfl

theorem decided_askOr {α β : Type} (f : α → β) (absent : α) (question : Leaf → α)
    (events : Plant → List Event) :
    Decided key found fun p => p.answering (f (p.askOr key absent question)) (events p) := by
  refine decided_answering key found (fun found => f (found.elim absent question)) events
    fun p => ?_
  rw [askOr]
  cases p.find? key <;> rfl

end

/-- What a call about one leaf finds decides what it answers and what it does. -/
theorem decided_perform {call : Call} {key : String} (hkey : call.key? = some key)
    (found : Option Leaf) : Decided key found fun p => p.perform call := by
  cases call with
  | set other seed values =>
      cases hkey
      exact (decided_set key found seed values).map Answer.unit
  | setFlags other flags =>
      cases hkey
      exact (decided_change key found (Leaf.isContent_flags flags)).map Answer.unit
  | setHostWord other word =>
      cases hkey
      exact (decided_change key found (Leaf.isContent_hostWord word)).map Answer.unit
  | delete other =>
      cases hkey
      exact (decided_delete key found).map Answer.unit
  | get other index =>
      cases hkey
      exact decided_ask key found Answer.value (fun leaf => leaf.valueAt index) _
  | getAs kind other =>
      cases hkey
      show Decided key found fun p =>
        p.answering (Answer.typed (p.getAs kind key)) (p.getEvents key 0)
      simp only [getAs_eq_ask]
      exact decided_ask key found Answer.typed _ _
  | getAll other =>
      cases hkey
      exact decided_ask key found Answer.values Leaf.values _
  | probe other index =>
      cases hkey
      exact decided_ask key found Answer.unit
        (fun leaf => if index < leaf.elements.length then .ok () else .error .noSuchElement) _
  | numElements other =>
      cases hkey
      exact decided_askOr key found Answer.count 0 (fun leaf => leaf.elements.length) _
  | elementSize other index =>
      cases hkey
      exact decided_askOr key found Answer.count 0 (fun leaf => leaf.sizeAt index) _
  | seedOf other =>
      cases hkey
      exact decided_askOr key found Answer.seed .invalid Leaf.seed _
  | flagsOf other =>
      cases hkey
      exact decided_askOr key found Answer.flags .empty (fun leaf => leaf.flags.visible) _
  | hostWordOf other =>
      cases hkey
      exact decided_ask key found Answer.word (fun leaf => .ok leaf.hostWord) _
  | has other =>
      cases hkey
      exact decided_answering key found (fun found => Answer.truth found.isSome) _ fun _ => rfl
  | _ => cases hkey

end Plant
end PlantStore
