import PlantStore.Call
import PlantStore.Proofs.Lookup

/-! # What a history says of a leaf

The calls of a run and their answers are enough to tell what every leaf holds. A call that took
effect is a *deed*: it wrote the leaf, changed its flags, or stored the host's word. The deeds on
a leaf since it was last taken out make up its *tenure*, and a leaf that is not there has none.
Nothing in this module looks at a plant. -/

namespace PlantStore

/-- A call that was made, and its answer. -/
structure Entry where
  call : Call
  answer : Answer

/-- A write that took effect. -/
structure Write where
  /-- How many calls there had been, this one included; 0 for the making of the plant. -/
  number : Nat
  seed : Seed
  values : List Value

/-- What a call that took effect did to a leaf. -/
inductive Deed
  | wrote (write : Write)
  | flagged (flags : LeafFlags)
  | stored (word : UInt64)

namespace Deed

/-! ### The deeds on one leaf, the last one first -/

/-- The writes among them. -/
def writes (deeds : List Deed) : List Write :=
  deeds.filterMap fun
    | wrote write => some write
    | _ => none

/-- The write that made the leaf. -/
def first? (deeds : List Deed) : Option Write := (writes deeds).getLast?

/-- The write that gave the leaf its values. -/
def last? (deeds : List Deed) : Option Write := (writes deeds).head?

/-- The flags that callers gave the leaf last. -/
def lastFlags (deeds : List Deed) : LeafFlags :=
  ((deeds.findSome? fun
    | flagged flags => some flags
    | _ => none).getD .empty).visible

/-- The host's word that was stored last. -/
def lastWord (deeds : List Deed) : UInt64 :=
  (deeds.findSome? fun
    | stored word => some word
    | _ => none).getD 0

/-- Whether the flags protect the leaf from removal. -/
def isUndeletable (deeds : List Deed) : Bool := (lastFlags deeds).contains .undeletable

/-- The number of the write that made the leaf. -/
def birth (deeds : List Deed) : Nat := ((first? deeds).map Write.number).getD 0

@[simp] theorem last?_wrote (write : Write) (deeds : List Deed) :
    last? (wrote write :: deeds) = some write := rfl

@[simp] theorem last?_flagged (flags : LeafFlags) (deeds : List Deed) :
    last? (flagged flags :: deeds) = last? deeds := rfl

@[simp] theorem last?_stored (word : UInt64) (deeds : List Deed) :
    last? (stored word :: deeds) = last? deeds := rfl

/-- A deed on a leaf that is there does not make it. -/
theorem getLast?_cons {deeds : List Deed} {made : Deed} (h : deeds.getLast? = some made)
    (deed : Deed) : (deed :: deeds).getLast? = some made := by
  rw [List.getLast?_cons, h]
  rfl

/-- If the first deed is a write, then it is the first write. -/
theorem first?_of_getLast? {deeds : List Deed} {made : Write}
    (h : deeds.getLast? = some (wrote made)) : first? deeds = some made := by
  obtain ⟨later, rfl⟩ := List.getLast?_eq_some_iff.mp h
  rw [first?, writes, List.filterMap_append, List.getLast?_append]
  rfl

@[simp] theorem lastFlags_wrote (write : Write) (deeds : List Deed) :
    lastFlags (wrote write :: deeds) = lastFlags deeds := rfl

@[simp] theorem lastFlags_flagged (flags : LeafFlags) (deeds : List Deed) :
    lastFlags (flagged flags :: deeds) = flags.visible := rfl

@[simp] theorem lastFlags_stored (word : UInt64) (deeds : List Deed) :
    lastFlags (stored word :: deeds) = lastFlags deeds := rfl

@[simp] theorem lastWord_wrote (write : Write) (deeds : List Deed) :
    lastWord (wrote write :: deeds) = lastWord deeds := rfl

@[simp] theorem lastWord_flagged (flags : LeafFlags) (deeds : List Deed) :
    lastWord (flagged flags :: deeds) = lastWord deeds := rfl

@[simp] theorem lastWord_stored (word : UInt64) (deeds : List Deed) :
    lastWord (stored word :: deeds) = word := rfl

end Deed

namespace Entry

/-! ### One call -/

/-- The leaf that a call took effect on, and what it did to it. -/
def deed? (number : Nat) : Entry → Option (String × Deed)
  | ⟨.set key seed values, .unit (.ok _)⟩ => some (leafName key, .wrote ⟨number, seed, values⟩)
  | ⟨.setFlags key flags, .unit (.ok _)⟩ => some (leafName key, .flagged flags)
  | ⟨.setHostWord key word, .unit (.ok _)⟩ => some (leafName key, .stored word)
  | _ => none

/-- Whether a call took out the leaf of a name. A `free` that is refused for undeletable leaves
has taken out all others, unless it was the root that refused it. -/
def removes (isUndeletable : String → Bool) (name : String) : Entry → Bool
  | ⟨.delete key, .unit (.ok _)⟩ => leafName key == name
  | ⟨.free, .unit (.ok _)⟩ => true
  | ⟨.free, .unit (.error .undeletable)⟩ =>
    name != rootKey && !isUndeletable rootKey && !isUndeletable name
  | _ => false

/-- Whether a call freed the plant. -/
def frees : Entry → Bool
  | ⟨.free, .unit (.ok _)⟩ => true
  | _ => false

end Entry

/-! ### A history -/

/-- The deeds on the leaf of a name since it was last taken out, told by a history of a plant
with this type. The last call of the history comes first, and so does the last deed. -/
def tenure (type : Int32) : List Entry → String → List Deed
  | [] => fun name =>
    if name = rootKey then [.flagged .immutable, .wrote ⟨0, .int, [.int type]⟩] else []
  | entry :: earlier => fun name =>
    if entry.removes (fun other => Deed.isUndeletable (tenure type earlier other)) name then []
    else
      match entry.deed? (earlier.length + 1) with
      | some (target, deed) =>
        if target = name then deed :: tenure type earlier name else tenure type earlier name
      | none => tenure type earlier name

/-- Whether the plant has been freed. -/
def isFreed (history : List Entry) : Bool := history.any Entry.frees

section

variable (type : Int32) (entry : Entry) (earlier : List Entry) (name : String)

theorem tenure_nil :
    tenure type [] name =
      if name = rootKey then [.flagged .immutable, .wrote ⟨0, .int, [.int type]⟩] else [] := rfl

theorem tenure_cons :
    tenure type (entry :: earlier) name =
      if entry.removes (fun other => Deed.isUndeletable (tenure type earlier other)) name then []
      else
        match entry.deed? (earlier.length + 1) with
        | some (target, deed) =>
          if target = name then deed :: tenure type earlier name else tenure type earlier name
        | none => tenure type earlier name := rfl

variable {entry earlier name}

theorem tenure_of_removes
    (h : entry.removes (fun other => Deed.isUndeletable (tenure type earlier other)) name = true) :
    tenure type (entry :: earlier) name = [] := by
  rw [tenure_cons, if_pos h]

theorem tenure_of_idle
    (h : entry.removes (fun other => Deed.isUndeletable (tenure type earlier other)) name = false)
    (hdeed : entry.deed? (earlier.length + 1) = none) :
    tenure type (entry :: earlier) name = tenure type earlier name := by
  rw [tenure_cons, if_neg (Bool.eq_false_iff.mp h), hdeed]

theorem tenure_of_deed {target : String} {deed : Deed}
    (h : entry.removes (fun other => Deed.isUndeletable (tenure type earlier other)) name = false)
    (hdeed : entry.deed? (earlier.length + 1) = some (target, deed)) :
    tenure type (entry :: earlier) name =
      if target = name then deed :: tenure type earlier name else tenure type earlier name := by
  rw [tenure_cons, if_neg (Bool.eq_false_iff.mp h), hdeed]

end

/-- No call is about a leaf with the empty name. -/
theorem tenure_empty (type : Int32) (history : List Entry) : tenure type history "" = [] := by
  induction history with
  | nil => simp [tenure, rootKey]
  | cons entry earlier ih =>
      rw [tenure_cons]
      split
      · rfl
      · cases hdeed : entry.deed? (earlier.length + 1) with
        | none => exact ih
        | some pair =>
            have htarget : ∃ key, pair.1 = leafName key := by
              unfold Entry.deed? at hdeed
              split at hdeed <;> cases hdeed <;> exact ⟨_, rfl⟩
            obtain ⟨key, hkey⟩ := htarget
            show (if pair.1 = "" then pair.2 :: tenure type earlier "" else tenure type earlier "")
              = []
            rw [if_neg (hkey ▸ leafName_ne_empty key)]
            exact ih

end PlantStore
