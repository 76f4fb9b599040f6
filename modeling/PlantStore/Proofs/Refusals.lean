import PlantStore.Call
import PlantStore.Proofs.Steps

/-! # Refusals

An answer that is a refusal names its cause. A call that is made by itself is never refused for a
lock: that takes another call that holds one. -/

namespace PlantStore

/-- The cause of a refusal, if the result is one. -/
def Result.refusal? {α : Type} : Result α → Option StoreError
  | .ok _ => none
  | .error e => some e

/-- The cause of a refusal, if the answer is one. -/
def Answer.refusal? : Answer → Option StoreError
  | unit r => Result.refusal? r
  | value r | typed r => Result.refusal? r
  | values r => Result.refusal? r
  | keys r => Result.refusal? r
  | word r => Result.refusal? r
  | type r => Result.refusal? r
  | count _ | seed _ | flags _ | truth _ | text _ | views .. => none

/-! ### Elements and leaves -/

theorem Element.decode_ne_locked (s : Seed) (element : Element) :
    element.decode s ≠ .error .concurrency := by
  unfold Element.decode
  cases element.value? s <;> simp

theorem Element.decodeAll_ne_locked (s : Seed) (elements : List Element) :
    decodeAll s elements ≠ .error .concurrency := by
  induction elements with
  | nil => simp [decodeAll, pure, Except.pure]
  | cons element rest ih =>
      rw [decodeAll] at ih ⊢
      rw [List.mapM_cons]
      intro h
      cases hhead : element.decode s with
      | error e =>
          rw [hhead] at h
          obtain rfl : e = .concurrency := by simpa [bind, Except.bind] using h
          exact element.decode_ne_locked s hhead
      | ok v =>
          cases htail : rest.mapM (decode s) with
          | error e =>
              rw [hhead, htail] at h
              obtain rfl : e = .concurrency := by simpa [bind, Except.bind] using h
              exact ih htail
          | ok values =>
              rw [hhead, htail] at h
              cases h

theorem Leaf.valueAt_ne_locked (leaf : Leaf) (index : Nat) :
    leaf.valueAt index ≠ .error .concurrency := by
  unfold Leaf.valueAt
  split
  · exact Element.decode_ne_locked _ _
  · simp

theorem Element.encodeAll_ne_locked (s : Seed) (values : List Value) :
    encodeAll s values ≠ .error .concurrency :=
  fun h => by cases encodeAll_eq_error h

namespace Plant

theorem renewal_ne_locked (atRoot : Bool) (leaf : Leaf) (seed : Seed) (values : List Value) :
    renewal atRoot leaf seed values ≠ .error .concurrency := by
  unfold renewal
  split
  · simp
  split
  · simp
  split
  · simp
  · exact Element.encodeAll_ne_locked seed values

variable [KeyHash] (p : Plant)

/-! ### Questions -/

theorem ask_ne_locked {α : Type} (key : String) {question : Leaf → Result α}
    (h : ∀ leaf, question leaf ≠ .error .concurrency) :
    p.ask key question ≠ .error .concurrency := by
  unfold ask
  split
  · exact h _
  · simp

theorem get_ne_locked (key : String) (index : Nat) : p.get key index ≠ .error .concurrency :=
  p.ask_ne_locked key fun leaf => leaf.valueAt_ne_locked index

theorem getAs_ne_locked (kind : ValueKind) (key : String) :
    p.getAs kind key ≠ .error .concurrency := by
  unfold getAs
  have hget := p.get_ne_locked key 0
  cases hvalue : p.get key 0 with
  | ok v =>
      dsimp only
      split <;> simp
  | error e =>
      rw [hvalue] at hget
      simpa using hget

theorem type_ne_locked : p.type ≠ .error .concurrency := by
  unfold type
  have hget := p.get_ne_locked rootKey 0
  cases hvalue : p.get rootKey 0 with
  | ok v => cases v <;> simp
  | error e =>
      rw [hvalue] at hget
      simpa using hget

/-! ### Changes -/

theorem update_ne_locked (key : String) (seed : Seed) (values : List Value) :
    p.update key seed values ≠ .error .concurrency := by
  unfold update
  cases p.find? key with
  | none => simp
  | some leaf =>
      have hrenewal := renewal_ne_locked (p.place? key == some .root) leaf seed values
      dsimp only
      split
      · simp
      next e he =>
        rw [he] at hrenewal
        simpa using hrenewal

theorem insert_ne_locked (key : String) (seed : Seed) (values : List Value) :
    p.insert key seed values ≠ .error .concurrency := by
  unfold insert
  have hencode := Element.encodeAll_ne_locked seed values
  split
  · simp
  next e he =>
    rw [he] at hencode
    simpa using hencode

theorem set_ne_locked (key : String) (seed : Seed) (values : List Value) :
    (p.set key seed values).answer ≠ .error .concurrency := by
  have hstore : p.store key seed values ≠ .error .concurrency := by
    unfold store
    have hupdate := p.update_ne_locked key seed values
    have hinsert := p.insert_ne_locked key seed values
    split
    · simp
    split
    · cases h : p.update key seed values with
      | ok after => simp [Except.map]
      | error e =>
          rw [h] at hupdate
          simpa [Except.map] using hupdate
    · cases h : p.insert key seed values with
      | ok after => simp [Except.map]
      | error e =>
          rw [h] at hinsert
          simpa [Except.map] using hinsert
  unfold set
  split
  · simp
  next e he =>
    rw [he] at hstore
    simpa using hstore

theorem change_ne_locked (key : String) (f : Leaf → Leaf) :
    (p.change key f).answer ≠ .error .concurrency := by
  unfold change
  split <;> simp

omit [KeyHash] in
theorem removeAt_ne_locked (index : Nat) : (p.removeAt index).answer ≠ .error .concurrency := by
  unfold removeAt
  split
  · simp
  · split <;> simp

theorem delete_ne_locked (key : String) : (p.delete key).answer ≠ .error .concurrency := by
  unfold delete
  split
  · rw [reportDeleted_answer]
    exact p.removeAt_ne_locked _
  all_goals simp

theorem free_ne_locked : p.free.answer ≠ .error .concurrency := by
  rcases p.free_cases with ⟨-, ha, -⟩ | ⟨-, -, ha, -⟩ | ⟨-, -, hfree⟩
  · simp [ha]
  · simp [ha]
  · rw [hfree]
    rcases p.freeFrom_cases 0 with ⟨-, ha, -⟩ | ⟨-, -, ha, -⟩ | ⟨-, -, ha, -⟩ <;> simp [ha]

/-! ### Calls -/

omit [KeyHash] in
theorem refusal?_ne {α : Type} {r : Result α} (h : r ≠ .error .concurrency) :
    Result.refusal? r ≠ some .concurrency := by
  cases r with
  | ok a => simp [Result.refusal?]
  | error e => simpa [Result.refusal?] using h

/-- A call that is made by itself is not refused for a lock. -/
theorem perform_not_locked (call : Call) :
    (p.perform call).answer.refusal? ≠ some .concurrency := by
  -- No function of a plant answers with this cause, so nothing depends on the state.
  cases call with
  | set key seed values => exact refusal?_ne (p.set_ne_locked key seed values)
  | get key index => exact refusal?_ne (p.get_ne_locked key index)
  | getAs kind key => exact refusal?_ne (p.getAs_ne_locked kind key)
  | getAll key =>
      exact refusal?_ne (p.ask_ne_locked key fun leaf => Element.decodeAll_ne_locked _ _)
  | probe key index =>
      refine refusal?_ne (p.ask_ne_locked key fun leaf => ?_)
      split <;> simp
  | setFlags key flags => exact refusal?_ne (p.change_ne_locked key _)
  | hostWordOf key => exact refusal?_ne (p.ask_ne_locked key fun leaf => by simp)
  | setHostWord key word => exact refusal?_ne (p.change_ne_locked key _)
  | delete key => exact refusal?_ne (p.delete_ne_locked key)
  | free => exact refusal?_ne p.free_ne_locked
  | type => exact refusal?_ne p.type_ne_locked
  | _ => exact fun h => by cases h

end Plant
end PlantStore
