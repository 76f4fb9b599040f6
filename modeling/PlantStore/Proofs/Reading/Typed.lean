import PlantStore.Proofs.Reading.Agreement
import PlantStore.Proofs.Verdict

/-! # Typed reads

A typed read looks at the first value of a leaf and refuses it if it is of another kind. It never
looks at the seed. Still the seed decides: under each seed fit values of one kind at most, and a
leaf holds nothing but values that fit its seed. So one of the six reads succeeds on a leaf that
is not empty, and what a typed write has put there the read of its kind gives back. -/

namespace PlantStore

/-! ### Seeds and kinds -/

/-- The seed of a kind is that of no other kind. -/
theorem ValueKind.fits_naturalSeed (k l : ValueKind) : l.fits k.naturalSeed = decide (k = l) := by
  cases k <;> cases l <;> rfl

theorem ValueKind.eq_naturalSeed_of_fits {k : ValueKind} {s : Seed} (hk : k ≠ .pointer)
    (h : k.fits s = true) : s = k.naturalSeed := by
  cases k with
  | pointer => exact absurd rfl hk
  | _ => exact beq_iff_eq.mp h

/-- No seed is that of two kinds. -/
theorem ValueKind.eq_of_fits {k l : ValueKind} {s : Seed} (hk : k.fits s = true)
    (hl : l.fits s = true) : k = l := by
  by_cases hpointer : k = .pointer
  · by_cases hpointer' : l = .pointer
    · exact hpointer.trans hpointer'.symm
    · rw [eq_naturalSeed_of_fits hpointer' hl, fits_naturalSeed] at hk
      exact (of_decide_eq_true hk).symm
  · rw [eq_naturalSeed_of_fits hpointer hk, fits_naturalSeed] at hl
    exact of_decide_eq_true hl

/-- Among the values that fit a seed, the kinds that fit it are those of the values. -/
theorem Value.kind_fits {v : Value} {s : Seed} (hv : v.fits s = true) (kind : ValueKind) :
    kind.fits s = decide (v.kind = kind) := by
  by_cases hkind : v.kind = kind
  · rw [decide_eq_true hkind, ← hkind]
    exact hv
  · rw [decide_eq_false hkind]
    exact Bool.eq_false_iff.mpr fun hfits => hkind (ValueKind.eq_of_fits hv hfits)

namespace Plant

/-- The rules for a typed read, in the order in which they are tried. -/
def typedReadRules [KeyHash] (p : Plant) (kind : ValueKind) (key : String) : List Rule :=
  [⟨!p.has key, .noSuchLeaf⟩,
    ⟨p.numElements key == 0, .noSuchElement⟩,
    ⟨!kind.fits (p.seedOf key), .wrongSeedType⟩]

section

variable [KeyHash]

/-! ### The read -/

/-- A typed read answers with the first value or not at all. -/
theorem get_of_getAs {p : Plant} {kind : ValueKind} {key : String} {v : Value}
    (h : p.getAs kind key = .ok v) : v.kind = kind ∧ p.get key 0 = .ok v := by
  rw [getAs] at h
  cases hget : p.get key 0 with
  | error e =>
      rw [hget] at h
      cases h
  | ok w =>
      simp only [hget] at h
      split at h
      next hkind =>
        obtain rfl : w = v := Except.ok.inj h
        exact ⟨hkind, rfl⟩
      · cases h

theorem getAs_of_get {p : Plant} {key : String} {v : Value} (h : p.get key 0 = .ok v)
    (kind : ValueKind) :
    p.getAs kind key = if v.kind = kind then .ok v else .error .wrongSeedType := by
  rw [getAs, h]

theorem getAs_of_refused {p : Plant} {key : String} {e : StoreError}
    (h : p.get key 0 = .error e) (kind : ValueKind) : p.getAs kind key = .error e := by
  rw [getAs, h]

/-- The type of a plant is the integer of its root. -/
theorem getAs_rootKey (p : Plant) : p.getAs .int rootKey = p.type.map .int := by
  rw [getAs, type]
  cases p.get rootKey 0 with
  | error e => rfl
  | ok v => cases v <;> rfl

/-- The seed of a leaf decides which kind of first value it can have. -/
theorem Presents.getAs_cons {p : Plant} {key : String} {v : Value} {rest : List Value}
    (h : p.Presents key (v :: rest)) (kind : ValueKind) :
    p.getAs kind key =
      if kind.fits (p.seedOf key) then .ok v else .error .wrongSeedType := by
  have hget : p.get key 0 = .ok v := h.get 0
  rw [getAs_of_get hget, Value.kind_fits (h.fits v List.mem_cons_self) kind]
  by_cases hkind : v.kind = kind
  · rw [if_pos hkind, if_pos (decide_eq_true hkind)]
  · rw [if_neg hkind, if_neg (by rw [decide_eq_false hkind]; exact Bool.false_ne_true)]

theorem Presents.getAs_nil {p : Plant} {key : String} (h : p.Presents key [])
    (kind : ValueKind) : p.getAs kind key = .error .noSuchElement :=
  getAs_of_refused (h.get 0) kind

section

variable {p : Plant} (h : p.WellFormed)

include h

/-- A typed read is judged by what there is to read and by the seed, not by the value. -/
theorem WellFormed.judge_getAs (kind : ValueKind) (key : String) :
    (p.getAs kind key).map (fun _ => ()) = Rule.judge (p.typedReadRules kind key) := by
  rw [typedReadRules]
  rcases h.presents_or_lacks key with ⟨hhas, -, values, hpresents⟩ | ⟨hhas, hlacks⟩
  · rw [hhas, Rule.judge_cons_of_kept rfl, hpresents.numElements]
    cases values with
    | nil =>
        rw [hpresents.getAs_nil, Rule.judge_cons_of_broken rfl]
        rfl
    | cons v rest =>
        rw [hpresents.getAs_cons, Rule.judge_cons_of_kept rfl]
        cases kind.fits (p.seedOf key) <;> rfl
  · rw [hhas, getAs_of_refused (hlacks.get 0)]
    rfl

/-- One read succeeds where there is something to read. -/
theorem WellFormed.existsUnique_getAs {key : String} (hhas : p.has key = true)
    (hlength : p.numElements key ≠ 0) : ∃! kind, ∃ v, p.getAs kind key = .ok v := by
  rcases h.presents_or_lacks key with ⟨-, -, values, hpresents⟩ | ⟨hnot, -⟩
  · cases values with
    | nil => exact absurd hpresents.numElements hlength
    | cons v rest =>
        have hget : p.get key 0 = .ok v := hpresents.get 0
        refine ⟨v.kind, ⟨v, (getAs_of_get hget _).trans (if_pos rfl)⟩, ?_⟩
        rintro kind ⟨w, hw⟩
        obtain ⟨hkind, hw⟩ := get_of_getAs hw
        obtain rfl : v = w := Except.ok.inj (hget.symm.trans hw)
        exact hkind.symm
  · rw [hhas] at hnot
    cases hnot

/-- The root of a plant that has not been freed holds one integer. -/
theorem WellFormed.root_holds (hd : p.isDefunct = false) : ∃ n, p.root.Holds [.int n] := by
  obtain ⟨values, hholds⟩ := (h.leaf_wellFormed p.root List.mem_cons_self).holds
  have hlength : values.length = 1 := hholds.length_eq.symm.trans (h.live_root hd)
  obtain ⟨v, rfl⟩ := List.length_eq_one_iff.mp hlength
  have hfits : v.fits .int = true := h.root_seed ▸ hholds.1 v List.mem_cons_self
  cases v with
  | int n => exact ⟨n, hholds⟩
  | _ => cases hfits

/-- It is the type of the plant, which is read under the key of the root. -/
theorem WellFormed.reads_root (hd : p.isDefunct = false) {n : Int32}
    (hholds : p.root.Holds [.int n]) : p.Presents rootKey [.int n] ∧ p.type = .ok n := by
  have hpresents := presents_of_find? (h.find?_rootKey hd) hholds
  refine ⟨hpresents, ?_⟩
  rw [type, hpresents.get]
  rfl

/-- A plant that has not been freed has a type. -/
theorem WellFormed.type_of_live (hd : p.isDefunct = false) : ∃ n, p.type = .ok n := by
  obtain ⟨n, hholds⟩ := h.root_holds hd
  exact ⟨n, (h.reads_root hd hholds).2⟩

/-! ### A write and a read -/

/-- After a write that took effect, the leaf of its key holds its values under its seed. -/
theorem WellFormed.find?_of_set {key : String} {seed : Seed} {values : List Value}
    (hok : (p.set key seed values).answer = .ok ()) :
    ∃ leaf, (p.set key seed values).plant.find? key = some leaf ∧ leaf.seed = seed ∧
      leaf.Holds values := by
  rcases h.set_cases key seed values with ⟨e, ha, -⟩ | ⟨leaf, elements, hfind, hr, -, hp⟩ |
      ⟨elements, hfind, hd, hencode, -, hp⟩
  · rw [hok] at ha
    cases ha
  · obtain ⟨hseed, -, -, hencode⟩ := renewal_eq_ok hr
    obtain ⟨-, hfit, rfl⟩ := Element.encodeAll_eq_ok_iff.mp hencode
    have hname : leaf.name = leafName key := (h.find?_eq_some_iff.mp hfind).2.2
    rw [hp, h.find?_alter _ (Leaf.isContent_elements _), hfind, Option.map_some,
      Leaf.alter_of_name hname]
    exact ⟨_, rfl, hseed, hseed ▸ hfit, rfl⟩
  · obtain ⟨-, hfit, rfl⟩ := Element.encodeAll_eq_ok_iff.mp hencode
    have hs := (h.link hd hfind hencode).toSearchable
    -- The new leaf is found by its name, which is the key.
    have hname := (Leaf.name_create key seed (values.map Element.ofValue)).trans
      hs.leafName_of_link.symm
    rw [hp, h.find?_link hd hs, if_pos hname]
    exact ⟨_, rfl, rfl, hfit, rfl⟩

/-- A value that was written is what the read of its kind answers. -/
theorem WellFormed.getAs_of_set {key : String} {seed : Seed} {v : Value}
    (hok : (p.set key seed [v]).answer = .ok ()) :
    (p.set key seed [v]).plant.getAs v.kind key = .ok v := by
  obtain ⟨leaf, hfind, -, hholds⟩ := h.find?_of_set hok
  have hget := (presents_of_find? hfind hholds).get 0
  exact (getAs_of_get hget _).trans (if_pos rfl)

end

/-! ### The theorem -/

/-- The typed reads of a reachable plant. Whether one succeeds is decided by whether there is a
leaf, by whether it has a value, and by its seed, in this order, and what it answers is the first
value. So one of them succeeds on a leaf that is not empty. The type of the plant is the integer
of its root, and a live plant has one. What a typed write has stored is read back. -/
theorem typed_reads_by_seed {p : Plant} (h : p.Reachable) :
    (∀ kind key,
      (p.getAs kind key).map (fun _ => ()) = Rule.judge (p.typedReadRules kind key) ∧
      ∀ v, p.getAs kind key = .ok v → v.kind = kind ∧ p.get key 0 = .ok v) ∧
    (∀ key, p.has key = true → p.numElements key ≠ 0 →
      ∃! kind, ∃ v, p.getAs kind key = .ok v) ∧
    p.getAs .int rootKey = p.type.map .int ∧
    (p.isDefunct = false → ∃ n, p.type = .ok n) ∧
    (∀ key v, (p.perform (.setValue key v)).answer = .unit (.ok ()) →
      (p.perform (.setValue key v)).plant.getAs v.kind key = .ok v) ∧
    (∀ key seed word, (p.perform (.setPointer key seed word)).answer = .unit (.ok ()) →
      (p.perform (.setPointer key seed word)).plant.getAs .pointer key = .ok (.pointer word)) := by
  have hwf := h.wellFormed
  refine ⟨fun kind key => ⟨hwf.judge_getAs kind key, fun v => get_of_getAs⟩,
    fun key => hwf.existsUnique_getAs, p.getAs_rootKey, hwf.type_of_live, ?_, ?_⟩
  · intro key v hok
    exact hwf.getAs_of_set (Answer.unit.inj hok)
  · intro key seed word hok
    exact hwf.getAs_of_set (Answer.unit.inj hok)

end

/-- An empty leaf, a leaf of a pointer type of the host's own, and a root that may be written. -/
theorem typed_reads_of_leaves :
    let p := ((Plant.make 7 false).run
      [.set "a" .string [], .setPointer "b" ⟨70⟩ 5, .setFlags "" .empty]).1
    p.Reachable ∧ p.getAs .string "a" = .error .noSuchElement ∧
      (∃! kind, ∃ v, p.getAs kind "b" = .ok v) ∧ p.getAs .pointer "b" = .ok (.pointer 5) ∧
      (p.perform (.setValue "" (.int (-1)))).plant.getAs .int "" = .ok (.int (-1)) := by
  intro p
  have hp : p.Reachable := .call (.call (.call (.make 7 false) _) _) _
  obtain ⟨-, hunique, -, -, hwrite, -⟩ := typed_reads_by_seed hp
  have hok : ((p.set "" .int [.int (-1)]).answer) = .ok () := by decide
  exact ⟨hp, by decide, hunique "b" (by decide) (by decide), by decide,
    hwrite "" (.int (-1)) (congrArg Answer.unit hok)⟩

end Plant
end PlantStore
