import PlantStore.Proofs.Freed.Answers

/-! # The rest of a freed plant

A `free` that is answered with success has freed the plant, whether it is made at once or has
waited for its turn. From then on no turn changes the plant. -/

namespace PlantStore

/-- Putting the mark of a freed plant on again changes nothing. -/
theorem LeafFlags.insert_defunct_of_contains {flags : LeafFlags}
    (h : flags.contains defunct = true) : flags.insert defunct = flags := by
  rw [contains_defunct] at h
  apply ext_bit
  intro i
  by_cases hi : i = 17
  · simp [hi, h]
  · simp [hi]

variable [KeyHash]

/-! ### Turns on a freed plant -/

namespace Plant

section

variable {p : Plant} (h : p.WellFormed) (hd : p.isDefunct = true)

include h hd

/-- To free a freed plant once more would change nothing. -/
theorem WellFormed.plant_freeFrom_of_isDefunct (start : Nat) : (p.freeFrom start).plant = p := by
  obtain ⟨hchain, helements, hword, -⟩ := h.freed hd
  have hsweep : p.sweep start = p := by
    rw [Plant.sweep, hchain, List.take_nil, List.drop_nil, List.filter_nil, List.append_nil,
      ← hchain]
  have hbury : p.bury = p := by
    rw [Plant.bury, LeafFlags.insert_defunct_of_contains hd, ← helements, ← hword]
  rcases p.freeFrom_cases start with ⟨-, -, hp⟩ | ⟨-, -, -, hp⟩ | ⟨-, -, -, hp⟩
  · rw [hp, hsweep]
  · rw [hp, hsweep]
  · rw [hp, hsweep, hbury]

omit h in
theorem publish_all_of_isDefunct (ws : List Waiting) : ws.foldl Waiting.publish p = p := by
  induction ws with
  | nil => rfl
  | cons w ws ih =>
      have hw : w.publish p = p := by
        cases w with
        | publishing name elements =>
            show p.modify name _ = p
            rw [modify, place?_of_isDefunct hd]
        | _ => rfl
      rw [List.foldl_cons, hw]
      exact ih

/-- No turn of any call changes a freed plant. -/
theorem WellFormed.eq_of_turn {allowed : String → LeafFlags → Prop} {q : Plant}
    (hturn : Turn allowed p q) : q = p := by
  obtain ⟨hchain, -, -, hu⟩ := h.freed hd
  cases hturn with
  | stays => rfl
  | performs call => exact (perform_of_isDefunct hd hu call).2
  | updates key seed values =>
      rw [Plant.updateNow, update, find?_of_isDefunct hd]
  | publishes ws => exact publish_all_of_isDefunct hd ws
  | removes index =>
      rw [Plant.removeAt, hchain]
      rfl
  | frees start => exact h.plant_freeFrom_of_isDefunct hd start

end

/-- A `free` that is answered with success has freed the plant. -/
theorem isDefunct_freeFrom {p : Plant} {start : Nat} (h : (p.freeFrom start).answer = .ok ()) :
    (p.freeFrom start).plant.isDefunct = true := by
  rcases p.freeFrom_cases start with ⟨-, ha, -⟩ | ⟨-, -, ha, -⟩ | ⟨-, -, -, hp⟩
  · rw [ha] at h
    cases h
  · rw [ha] at h
    cases h
  · rw [hp]
    exact isDefunct_bury _

theorem isDefunct_freeAfterWait {p : Plant} (h : p.freeAfterWait.answer = .ok ()) :
    p.freeAfterWait.plant.isDefunct = true := by
  rcases p.freeAfterWait_cases with ⟨-, ha, -⟩ | ⟨-, hfree⟩
  · rw [ha] at h
    cases h
  · rw [hfree] at h ⊢
    exact isDefunct_freeFrom h

theorem isDefunct_free {p : Plant} (h : p.free.answer = .ok ()) :
    p.free.plant.isDefunct = true := by
  rcases p.free_cases with ⟨-, ha, -⟩ | ⟨-, -, ha, -⟩ | ⟨-, -, hfree⟩
  · rw [ha] at h
    cases h
  · rw [ha] at h
    cases h
  · rw [hfree] at h ⊢
    exact isDefunct_freeFrom h

end Plant

end PlantStore
