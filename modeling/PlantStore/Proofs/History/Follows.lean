import PlantStore.Proofs.History.Deeds
import PlantStore.Proofs.WellFormed

/-! # Following a history

A plant follows a history if each leaf is what its tenure says, a leaf without a tenure is not
there, and the chain stands in the order of the writes that made its leaves. One call preserves
this, a refused call as well as one that takes effect. -/

namespace PlantStore

/-! ### Leaves and their deeds -/

/-- A leaf is what the deeds on it say. -/
structure Leaf.Records (leaf : Leaf) (deeds : List Deed) : Prop where
  /-- The first deed is the write that made the leaf. -/
  made : ∃ write, deeds.getLast? = some (.wrote write) ∧ write.seed = leaf.seed
  holds : ∃ write, Deed.last? deeds = some write ∧ leaf.Holds write.values
  flags_eq : leaf.flags.visible = Deed.lastFlags deeds
  word_eq : leaf.hostWord = Deed.lastWord deeds

namespace Leaf

variable {leaf : Leaf} {deeds : List Deed} (h : leaf.Records deeds)

include h

theorem Records.isUndeletable_eq : Deed.isUndeletable deeds = leaf.isUndeletable := by
  rw [Deed.isUndeletable, ← h.flags_eq, Leaf.isUndeletable]
  simp

theorem Records.wrote {values : List Value} (hfit : ∀ v ∈ values, v.fits leaf.seed = true)
    (number : Nat) (seed : Seed) :
    ({ leaf with elements := values.map Element.ofValue } : Leaf).Records
      (.wrote ⟨number, seed, values⟩ :: deeds) := by
  obtain ⟨write, hfirst, hseed⟩ := h.made
  exact ⟨⟨write, Deed.getLast?_cons hfirst _, hseed⟩, ⟨_, rfl, hfit, rfl⟩, h.flags_eq, h.word_eq⟩

theorem Records.flagged (flags : LeafFlags) :
    ({ leaf with flags := leaf.flags.replaceVisible flags } : Leaf).Records
      (.flagged flags :: deeds) := by
  obtain ⟨write, hfirst, hseed⟩ := h.made
  refine ⟨⟨write, Deed.getLast?_cons hfirst _, hseed⟩, h.holds, ?_, h.word_eq⟩
  rw [LeafFlags.visible_replaceVisible, Deed.lastFlags_flagged]

theorem Records.stored (word : UInt64) :
    ({ leaf with hostWord := word } : Leaf).Records (.stored word :: deeds) := by
  obtain ⟨write, hfirst, hseed⟩ := h.made
  exact ⟨⟨write, Deed.getLast?_cons hfirst _, hseed⟩, h.holds, h.flags_eq, rfl⟩

end Leaf

/-- A new leaf is what the write that made it says. -/
theorem Leaf.records_create [KeyHash] {seed : Seed} {values : List Value}
    (hfit : ∀ v ∈ values, v.fits seed = true) (key : String) (number : Nat) :
    (Leaf.create key seed (values.map Element.ofValue)).Records
      [.wrote ⟨number, seed, values⟩] := by
  exact ⟨⟨_, rfl, rfl⟩, ⟨_, rfl, hfit, rfl⟩, rfl, rfl⟩

/-! ### The order of the chain -/

/-- The names stand in the order in which their leaves were made, the newest first. -/
structure NewestFirst (type : Int32) (history : List Entry) (names : List String) : Prop where
  pairwise : names.Pairwise fun a b =>
    Deed.birth (tenure type history b) < Deed.birth (tenure type history a)
  le_length : ∀ name ∈ names, Deed.birth (tenure type history name) ≤ history.length

/-- A call keeps the order of the leaves that it does not make. -/
theorem NewestFirst.after {type : Int32} {history : List Entry} {names names' : List String}
    (h : NewestFirst type history names) (hsub : names'.Sublist names) (entry : Entry)
    (hbirth : ∀ name ∈ names', Deed.birth (tenure type (entry :: history) name) =
      Deed.birth (tenure type history name)) :
    NewestFirst type (entry :: history) names' := by
  refine ⟨?_, ?_⟩
  · apply (h.pairwise.sublist hsub).imp_of_mem
    intro a b ha hb hlt
    rw [hbirth a ha, hbirth b hb]
    exact hlt
  · intro name hname
    rw [hbirth name hname]
    exact Nat.le_succ_of_le (h.le_length name (hsub.subset hname))

/-- A call puts the leaf that it makes before all others. -/
theorem NewestFirst.cons {type : Int32} {history : List Entry} {names : List String}
    (h : NewestFirst type history names) {entry : Entry} {made : String}
    (hmade : Deed.birth (tenure type (entry :: history) made) = history.length + 1)
    (hbirth : ∀ name ∈ names, Deed.birth (tenure type (entry :: history) name) =
      Deed.birth (tenure type history name)) :
    NewestFirst type (entry :: history) (made :: names) := by
  have hold := h.after (List.Sublist.refl _) entry hbirth
  refine ⟨List.pairwise_cons.mpr ⟨?_, hold.pairwise⟩, ?_⟩
  · intro name hname
    rw [hmade, hbirth name hname]
    exact Nat.lt_succ_of_le (h.le_length name hname)
  · intro name hname
    rcases List.mem_cons.mp hname with rfl | hrest
    · exact Nat.le_of_eq hmade
    · exact hold.le_length name hrest

namespace Plant

variable [KeyHash]

/-- A plant is what a history of calls says. -/
structure Follows (type : Int32) (history : List Entry) (p : Plant) : Prop where
  wellFormed : p.WellFormed
  records : ∀ key leaf, p.find? key = some leaf →
    leaf.Records (tenure type history (leafName key))
  absent : ∀ key, p.find? key = none → tenure type history (leafName key) = []
  freed : isFreed history = p.isDefunct
  order : NewestFirst type history (p.chain.map Leaf.name)

/-- A new plant follows the empty history. -/
theorem Follows.make (type : Int32) (debug : Bool) : (make type debug).Follows type [] := by
  have hwf := WellFormed.make type debug
  refine ⟨hwf, ?_, ?_, (isDefunct_make type debug).symm, List.Pairwise.nil,
    fun name hname => by cases hname⟩
  · intro key leaf hfind
    obtain ⟨-, hmem, hname⟩ := hwf.find?_eq_some_iff.mp hfind
    obtain rfl : leaf = (Plant.make type debug).root := List.mem_singleton.mp hmem
    have hfit : ∀ v ∈ [Value.int type], v.fits .int = true := by
      intro v hv
      obtain rfl := List.mem_singleton.mp hv
      rfl
    rw [tenure_nil, if_pos (hname.symm.trans hwf.root_name)]
    exact ⟨⟨_, rfl, rfl⟩, ⟨_, rfl, hfit, rfl⟩, rfl, rfl⟩
  · intro key hfind
    have hne : leafName key ≠ rootKey := by
      have hnone := hwf.ne_of_find?_none (isDefunct_make type debug) hfind
      exact fun hkey => hnone _ List.mem_cons_self (hwf.root_name.trans hkey.symm)
    rw [tenure_nil, if_neg hne]

/-! ### One call -/

section

variable {type : Int32} {history : List Entry} {p : Plant} (h : p.Follows type history)

include h

/-- The tenure of a leaf in the chain names the write that made it. -/
theorem Follows.records_of_mem {leaf : Leaf} (hd : p.isDefunct = false) (hmem : leaf ∈ p.leaves) :
    leaf.Records (tenure type history leaf.name) := by
  have hname := h.wellFormed.name_filled hmem
  have hfind : p.find? leaf.name = some leaf :=
    h.wellFormed.find?_eq_some_iff.mpr ⟨hd, hmem, hname.symm⟩
  have hrec := h.records leaf.name leaf hfind
  rwa [hname] at hrec

/-- A call that took no effect is followed. -/
theorem Follows.idle {entry : Entry}
    (hremoves : ∀ name,
      entry.removes (fun other => Deed.isUndeletable (tenure type history other)) name = false)
    (hdeed : entry.deed? (history.length + 1) = none) (hfrees : entry.frees = false) :
    p.Follows type (entry :: history) := by
  have hsame : ∀ name, tenure type (entry :: history) name = tenure type history name :=
    fun name => tenure_of_idle type (hremoves name) hdeed
  refine ⟨h.wellFormed, ?_, ?_, ?_, ?_⟩
  · intro key leaf hfind
    rw [hsame]
    exact h.records key leaf hfind
  · intro key hfind
    rw [hsame]
    exact h.absent key hfind
  · rw [isFreed, List.any_cons, hfrees]
    exact h.freed
  · exact h.order.after (List.Sublist.refl _) entry fun name _ => congrArg Deed.birth (hsame name)

/-- A change of the leaf of a key is followed if the leaf is changed as the deed says. -/
theorem Follows.alter {entry : Entry} {key : String} {leaf : Leaf} {f : Leaf → Leaf} {deed : Deed}
    (hfind : p.find? key = some leaf) (hf : Leaf.IsContent f)
    (hwf : (p.alter (leafName key) f).WellFormed)
    (hremoves : ∀ name,
      entry.removes (fun other => Deed.isUndeletable (tenure type history other)) name = false)
    (hdeed : entry.deed? (history.length + 1) = some (leafName key, deed))
    (hfrees : entry.frees = false)
    (hrec : ∀ deeds, leaf.Records deeds → (f leaf).Records (deed :: deeds)) :
    (p.alter (leafName key) f).Follows type (entry :: history) := by
  have htenure : ∀ name, tenure type (entry :: history) name =
      if leafName key = name then deed :: tenure type history name else tenure type history name :=
    fun name => tenure_of_deed type (hremoves name) hdeed
  -- Every key of that name finds the altered leaf, and every other what it found before.
  obtain ⟨hd, hmem, hname⟩ := h.wellFormed.find?_eq_some_iff.mp hfind
  refine ⟨hwf, ?_, ?_, ?_, ?_⟩
  · intro other l hl
    rw [h.wellFormed.find?_alter (leafName key) hf, Option.map_eq_some_iff] at hl
    obtain ⟨old, hold, rfl⟩ := hl
    have holdname := (h.wellFormed.find?_eq_some_iff.mp hold).2
    rw [htenure]
    by_cases hkey : leafName key = leafName other
    · obtain rfl : old = leaf :=
        h.wellFormed.eq_of_name holdname.1 hmem (holdname.2.trans (hkey.symm.trans hname.symm))
      rw [if_pos hkey, Leaf.alter_of_name hname]
      exact hrec _ (h.records other old hold)
    · rw [if_neg hkey, Leaf.alter_of_ne fun heq => hkey (heq.symm.trans holdname.2)]
      exact h.records other old hold
  · intro other hother
    rw [h.wellFormed.find?_alter (leafName key) hf, Option.map_eq_none_iff] at hother
    have hkey : leafName key ≠ leafName other := by
      intro heq
      rw [← h.wellFormed.find?_leafName, ← heq, h.wellFormed.find?_leafName, hfind] at hother
      cases hother
    rw [htenure, if_neg hkey]
    exact h.absent other hother
  · rw [isFreed, List.any_cons, hfrees, isDefunct_alter p _ hf]
    exact h.freed
  · -- The deed comes on top of the others, so the leaf keeps the write that made it.
    have hnames : (p.alter (leafName key) f).chain.map Leaf.name = p.chain.map Leaf.name := by
      show (p.chain.map (Leaf.alter (leafName key) f)).map Leaf.name = p.chain.map Leaf.name
      rw [List.map_map]
      exact List.map_congr_left fun l _ => (hf.alter (leafName key)).name l
    rw [hnames]
    apply h.order.after (List.Sublist.refl _)
    intro name hmemname
    obtain ⟨l, hl, rfl⟩ := List.mem_map.mp hmemname
    obtain ⟨write, hfirst, -⟩ := (h.records_of_mem hd (List.mem_cons_of_mem _ hl)).made
    rw [htenure]
    split
    · rw [Deed.birth, Deed.birth, Deed.first?_of_getLast? hfirst,
        Deed.first?_of_getLast? (Deed.getLast?_cons hfirst deed)]
    · rfl

/-- A write that makes a leaf is followed. -/
theorem Follows.link {key : String} {seed : Seed} {values : List Value} {entry : Entry}
    (hd : p.isDefunct = false) (hfind : p.find? key = none)
    (hfit : ∀ v ∈ values, v.fits seed = true)
    (hwf : (p.link (.create key seed (values.map Element.ofValue))).WellFormed)
    (hremoves : ∀ name,
      entry.removes (fun other => Deed.isUndeletable (tenure type history other)) name = false)
    (hdeed : entry.deed? (history.length + 1) =
      some (leafName key, .wrote ⟨history.length + 1, seed, values⟩))
    (hfrees : entry.frees = false) :
    (p.link (.create key seed (values.map Element.ofValue))).Follows type (entry :: history) := by
  have hname : (Leaf.create key seed (values.map Element.ofValue)).name = leafName key := by
    have hmade := hwf.name_filled (List.mem_cons_of_mem _ List.mem_cons_self)
    rw [Leaf.name_create] at hmade
    rw [Leaf.name_create, hmade]
  -- The name has no tenure yet, so the new deed is the first of it.
  have hnew := h.absent key hfind
  have htenure : ∀ name, tenure type (entry :: history) name =
      if leafName key = name then [.wrote ⟨history.length + 1, seed, values⟩]
      else tenure type history name := by
    intro name
    rw [tenure_of_deed type (hremoves name) hdeed]
    split
    next hkey => rw [← hkey, hnew]
    next => rfl
  have hsearch := h.wellFormed.find?_link hd hwf.toSearchable
  refine ⟨hwf, ?_, ?_, ?_, ?_⟩
  · intro other leaf hleaf
    rw [hsearch, hname] at hleaf
    rw [htenure]
    by_cases hkey : leafName key = leafName other
    · rw [if_pos hkey] at hleaf ⊢
      obtain rfl := Option.some.inj hleaf
      exact Leaf.records_create hfit key _
    · rw [if_neg hkey] at hleaf ⊢
      exact h.records other leaf hleaf
  · intro other hother
    rw [hsearch, hname] at hother
    by_cases hkey : leafName key = leafName other
    · rw [if_pos hkey] at hother
      cases hother
    · rw [if_neg hkey] at hother
      rw [htenure, if_neg hkey]
      exact h.absent other hother
  · rw [isFreed, List.any_cons, hfrees]
    exact h.freed
  · have hother : ∀ name ∈ p.chain.map Leaf.name, leafName key ≠ name := by
      intro name hmem heq
      obtain ⟨leaf, hleaf, rfl⟩ := List.mem_map.mp hmem
      exact h.wellFormed.ne_of_find?_none hd hfind leaf (List.mem_cons_of_mem _ hleaf) heq.symm
    show NewestFirst type (entry :: history)
      ((Leaf.create key seed (values.map Element.ofValue)).name :: p.chain.map Leaf.name)
    rw [hname]
    apply h.order.cons
    · rw [htenure, if_pos rfl]
      rfl
    · intro name hmem
      rw [htenure, if_neg (hother name hmem)]

/-- A removal is followed if the leaves that stay are those whose names it does not remove. -/
theorem Follows.remove {entry : Entry} {q : Plant} (stays : String → Leaf → Bool)
    (hwf : q.WellFormed) (hd : p.isDefunct = false) (hdefunct : q.isDefunct = p.isDefunct)
    (hsub : q.chain.Sublist p.chain)
    (hfind : ∀ key, q.find? key = (p.find? key).filter (stays (leafName key)))
    (hremoves : ∀ key leaf, p.find? key = some leaf →
      entry.removes (fun other => Deed.isUndeletable (tenure type history other)) (leafName key) =
        !stays (leafName key) leaf)
    (hdeed : entry.deed? (history.length + 1) = none) (hfrees : entry.frees = false) :
    q.Follows type (entry :: history) := by
  have hkept : ∀ key leaf, q.find? key = some leaf → p.find? key = some leaf ∧
      tenure type (entry :: history) (leafName key) = tenure type history (leafName key) := by
    intro key leaf hleaf
    rw [hfind, Option.filter_eq_some_iff] at hleaf
    refine ⟨hleaf.1, tenure_of_idle type ?_ hdeed⟩
    rw [hremoves key leaf hleaf.1, hleaf.2]
    rfl
  refine ⟨hwf, ?_, ?_, ?_, ?_⟩
  · intro key leaf hleaf
    obtain ⟨hold, hsame⟩ := hkept key leaf hleaf
    rw [hsame]
    exact h.records key leaf hold
  · intro key hnone
    cases hold : p.find? key with
    | none =>
        -- Whether or not the call removes the name, there was nothing before it.
        rw [tenure_cons, h.absent key hold, hdeed]
        split <;> rfl
    | some leaf =>
        rw [hfind, hold, Option.filter_eq_none_iff] at hnone
        have hgone : stays (leafName key) leaf = false :=
          Bool.eq_false_iff.mpr (hnone leaf rfl)
        apply tenure_of_removes
        rw [hremoves key leaf hold, hgone]
        rfl
  · rw [isFreed, List.any_cons, hfrees, hdefunct]
    exact h.freed
  · apply h.order.after (hsub.map _)
    intro name hmem
    obtain ⟨leaf, hleaf, rfl⟩ := List.mem_map.mp hmem
    have hmemq : leaf ∈ q.leaves := List.mem_cons_of_mem _ hleaf
    have hname := hwf.name_filled hmemq
    have hfound : q.find? leaf.name = some leaf :=
      hwf.find?_eq_some_iff.mpr ⟨hdefunct.trans hd, hmemq, hname.symm⟩
    have hsame := (hkept leaf.name leaf hfound).2
    rw [hname] at hsame
    exact congrArg Deed.birth hsame

omit h in
/-- A freed plant follows a history that ends with its `free`. -/
theorem Follows.bury {q : Plant} (hwf : q.WellFormed) (hd : q.isDefunct = true)
    (result : Unit) :
    q.Follows type (⟨.free, .unit (.ok result)⟩ :: history) := by
  have htenure : ∀ name, tenure type (⟨.free, .unit (.ok result)⟩ :: history) name = [] :=
    fun name => tenure_of_removes type rfl
  refine ⟨hwf, ?_, fun key _ => htenure (leafName key), ?_, ?_⟩
  · intro key leaf hfind
    rw [find?_of_isDefunct hd] at hfind
    cases hfind
  · rw [hd]
    rfl
  · rw [(hwf.freed hd).1]
    exact ⟨List.Pairwise.nil, fun name hname => by cases hname⟩

theorem Follows.set (key : String) (seed : Seed) (values : List Value) :
    (p.set key seed values).plant.Follows type
      (⟨.set key seed values, .unit (p.set key seed values).answer⟩ :: history) := by
  have hwf := h.wellFormed.set key seed values
  rcases h.wellFormed.set_cases key seed values with ⟨e, ha, hp⟩ |
      ⟨leaf, elements, hfind, hr, ha, hp⟩ | ⟨elements, hfind, hd, hencode, ha, hp⟩
  · rw [ha, hp]
    exact h.idle (fun _ => rfl) rfl rfl
  · obtain ⟨hseed, -, -, hencode⟩ := renewal_eq_ok hr
    obtain ⟨-, hfit, rfl⟩ := Element.encodeAll_eq_ok_iff.mp hencode
    rw [hp] at hwf
    rw [ha, hp]
    exact h.alter hfind (Leaf.isContent_elements _) hwf (fun _ => rfl) rfl rfl
      fun deeds hrec => hrec.wrote (hseed ▸ hfit) _ _
  · obtain ⟨-, hfit, rfl⟩ := Element.encodeAll_eq_ok_iff.mp hencode
    rw [hp] at hwf
    rw [ha, hp]
    exact h.link hd hfind hfit hwf (fun _ => rfl) rfl rfl

theorem Follows.setFlags (key : String) (flags : LeafFlags) :
    (p.setFlags key flags).plant.Follows type
      (⟨.setFlags key flags, .unit (p.setFlags key flags).answer⟩ :: history) := by
  have hwf := h.wellFormed.setFlags key flags
  rw [Plant.setFlags] at hwf ⊢
  rcases h.wellFormed.change_cases key
    (fun leaf => { leaf with flags := leaf.flags.replaceVisible flags }) with
      ⟨-, ha, hp⟩ | ⟨leaf, hfind, ha, hp⟩
  · rw [ha, hp]
    exact h.idle (fun _ => rfl) rfl rfl
  · rw [hp] at hwf
    rw [ha, hp]
    exact h.alter hfind (Leaf.isContent_flags flags) hwf (fun _ => rfl) rfl rfl
      fun deeds hrec => hrec.flagged flags

theorem Follows.setHostWord (key : String) (word : UInt64) :
    (p.setHostWord key word).plant.Follows type
      (⟨.setHostWord key word, .unit (p.setHostWord key word).answer⟩ :: history) := by
  have hwf := h.wellFormed.setHostWord key word
  rw [Plant.setHostWord] at hwf ⊢
  rcases h.wellFormed.change_cases key (fun leaf => { leaf with hostWord := word }) with
      ⟨-, ha, hp⟩ | ⟨leaf, hfind, ha, hp⟩
  · rw [ha, hp]
    exact h.idle (fun _ => rfl) rfl rfl
  · rw [hp] at hwf
    rw [ha, hp]
    exact h.alter hfind (Leaf.isContent_hostWord word) hwf (fun _ => rfl) rfl rfl
      fun deeds hrec => hrec.stored word

theorem Follows.delete (key : String) :
    (p.delete key).plant.Follows type
      (⟨.delete key, .unit (p.delete key).answer⟩ :: history) := by
  have hwf := h.wellFormed.delete key
  rcases h.wellFormed.delete_cases key with ⟨e, ha, hp⟩ | ⟨leaf, hfind, hroot, -, ha, hp⟩
  · rw [ha, hp]
    exact h.idle (fun _ => rfl) rfl rfl
  · rw [hp] at hwf
    rw [ha, hp]
    have hd := h.wellFormed.isDefunct_of_find? hfind
    refine h.remove (fun name _ => name != leafName key) hwf hd rfl List.filter_sublist
      ?_ ?_ rfl rfl
    · intro other
      rw [h.wellFormed.find?_without hroot]
      show _ = (p.find? other).filter fun _ => leafName other != leafName key
      by_cases hkey : leafName other = leafName key
      · rw [if_pos hkey, hkey, bne_self_eq_false]
        cases p.find? other <;> rfl
      · rw [if_neg hkey, bne_iff_ne.mpr hkey]
        cases p.find? other <;> rfl
    · intro other _ _
      show (leafName key == leafName other) = !(leafName other != leafName key)
      rw [bne, Bool.not_not, BEq.comm]

/-- A `free` that sweeps the chain and leaves something behind is followed. -/
theorem Follows.sweep (hd : p.isDefunct = false) (hu : p.root.isUndeletable = false) :
    (p.sweep 0).Follows type (⟨.free, .unit (.error .undeletable)⟩ :: history) := by
  have hroot : Deed.isUndeletable (tenure type history rootKey) = false := by
    have hrec := h.records_of_mem hd List.mem_cons_self
    rw [h.wellFormed.root_name] at hrec
    rw [hrec.isUndeletable_eq, hu]
  have hsub : (p.sweep 0).chain.Sublist p.chain := List.filter_sublist
  refine h.remove (fun name leaf => name == rootKey || leaf.isUndeletable)
    (h.wellFormed.sweep 0) hd rfl hsub h.wellFormed.find?_sweep ?_ rfl rfl
  intro key leaf hfind
  show (leafName key != rootKey && !Deed.isUndeletable (tenure type history rootKey) &&
    !Deed.isUndeletable (tenure type history (leafName key))) =
      !(leafName key == rootKey || leaf.isUndeletable)
  rw [hroot, (h.records key leaf hfind).isUndeletable_eq, bne, Bool.not_false, Bool.and_true,
    Bool.not_or]

theorem Follows.free :
    p.free.plant.Follows type (⟨.free, .unit p.free.answer⟩ :: history) := by
  have hwf := h.wellFormed.free
  rcases p.free_cases with ⟨hu, ha, hp⟩ | ⟨-, -, ha, hp⟩ | ⟨hu, hd, hf⟩
  · rw [ha, hp]
    have hd : p.isDefunct = false := by
      apply Bool.eq_false_iff.mpr
      intro hdef
      rw [(h.wellFormed.freed hdef).2.2.2] at hu
      cases hu
    -- The undeletable root is told by its deeds too, so the entry removes no name.
    have hroot : Deed.isUndeletable (tenure type history rootKey) = true := by
      have hrec := h.records_of_mem hd List.mem_cons_self
      rw [h.wellFormed.root_name] at hrec
      rw [hrec.isUndeletable_eq, hu]
    refine h.idle (fun name => ?_) rfl rfl
    show (name != rootKey && !Deed.isUndeletable (tenure type history rootKey) &&
      !Deed.isUndeletable (tenure type history name)) = false
    rw [hroot, Bool.not_true, Bool.and_false, Bool.false_and]
  · rw [ha, hp]
    exact h.idle (fun _ => rfl) rfl rfl
  · rw [hf] at hwf ⊢
    rcases p.freeFrom_cases 0 with ⟨-, ha, hp⟩ | ⟨-, hu', -, -⟩ | ⟨-, -, ha, hp⟩
    · rw [ha, hp]
      exact h.sweep hd hu
    · rw [hu] at hu'
      cases hu'
    · rw [hp] at hwf
      rw [ha, hp]
      exact Follows.bury hwf (isDefunct_bury _) ()

/-- Every call is followed. -/
theorem Follows.perform (call : Call) :
    (p.perform call).plant.Follows type (⟨call, (p.perform call).answer⟩ :: history) := by
  cases call with
  | set key seed values => exact h.set key seed values
  | setFlags key flags => exact h.setFlags key flags
  | setHostWord key word => exact h.setHostWord key word
  | delete key => exact h.delete key
  | free => exact h.free
  | _ => exact h.idle (fun _ => rfl) rfl rfl

end

end Plant
end PlantStore
