import Mathlib.Data.List.Permutation
import PlantStore.Proofs.Overlap.Finish

/-! # Serial orders

An overlap is serializable if its calls can be put into an order in which, made one after the
other, they give the same answers and leave the same plant. The calls that were answered at once
keep their order. A call that was refused for a lock, or because the leaf it stood on is gone,
counts as not made. -/

namespace PlantStore

/-- The part that a call plays in an overlap. -/
inductive Role
  | held | ordinary | started
  deriving DecidableEq

deriving instance DecidableEq for Plant.LeafView, Call, Answer

/-- A call of an overlap and its answer. -/
structure Part where
  role : Role
  call : Call
  /-- The plant that the call came upon. -/
  met : Plant
  answer : Answer
  deriving DecidableEq

variable [KeyHash]

namespace Overlap

/-! ### The parts of an overlap -/

/-- The calls that a script makes at once, with the answers given to them. -/
def ordinaryParts (o : Overlap) : List Step → List (Option Answer) → List Part
  | .now call :: rest, some answer :: during =>
    ⟨.ordinary, call, o.plant, answer⟩ :: ordinaryParts (o.step (.now call)).1 rest during
  | .start call :: rest, none :: during => ordinaryParts (o.step (.start call)).1 rest during
  | _, _ => []

/-- The calls that were started, with the answers given to them. -/
def startedParts (asked : List (Call × Plant)) (answers : List Answer) : List Part :=
  List.zipWith (fun ask answer => ⟨.started, ask.1, ask.2, answer⟩) asked answers

/-- All calls of an overlap, the stopped one first. -/
def parts (p : Plant) (hold : Call) (script : List Step) : List Part :=
  let report := run p hold script
  let o := begun p hold
  ⟨.held, hold, p, report.stopped⟩ ::
    (o.ordinaryParts script report.during ++ startedParts (o.asked script) report.started)

end Overlap

/-! ### Orders -/

/-- The answer is the one that the call gives by itself on a plant. -/
def Part.Exact (p : Plant) (part : Part) : Prop := part.answer = (p.perform part.call).answer

/-- The call counts as not made: it was refused for a lock, or it was a write that waited and
whose leaf is gone. -/
def Part.Void (p : Plant) (part : Part) : Prop :=
  match part.call with
  | .hostWordOf _ => part.answer = .word (.error .concurrency)
  | .setHostWord .. => part.answer = .unit (.error .concurrency)
  | .set key .. =>
    part.role ≠ .ordinary ∧ part.met.has key = true ∧ p.has key = false ∧
      part.answer = .unit (.error .noSuchLeaf)
  | _ => False

/-- `Serial agrees p order q` says that the calls, made one after the other, lead from `p` to
`q`, and that each answer agrees with the plant on which its call is made. -/
inductive Serial (agrees : Plant → Part → Prop) : Plant → List Part → Plant → Prop
  | done {p : Plant} : Serial agrees p [] p
  | next {p q : Plant} {part : Part} {rest : List Part} (hpart : agrees p part)
    (hrest : Serial agrees (p.perform part.call).plant rest q) :
    Serial agrees p (part :: rest) q
  | skip {p q : Plant} {part : Part} {rest : List Part} (hpart : part.Void p)
    (hrest : Serial agrees p rest q) : Serial agrees p (part :: rest) q

theorem Serial.append {agrees : Plant → Part → Prop} {p q r : Plant} {a b : List Part}
    (ha : Serial agrees p a q) (hb : Serial agrees q b r) : Serial agrees p (a ++ b) r := by
  induction ha with
  | done => exact hb
  | next hpart _ ih => exact .next hpart (ih hb)
  | skip hpart _ ih => exact .skip hpart (ih hb)

/-- A call that leaves its plant as it was. -/
theorem Serial.still {agrees : Plant → Part → Prop} {p q : Plant} {part : Part}
    {rest : List Part} (hpart : agrees p part) (hplant : (p.perform part.call).plant = p)
    (hrest : Serial agrees p rest q) : Serial agrees p (part :: rest) q := by
  apply Serial.next hpart
  rw [hplant]
  exact hrest

/-- What calls keep true holds wherever a call of the order has its turn. -/
theorem Serial.at_turn {agrees : Plant → Part → Prop} {inv : Plant → Prop} {p q : Plant}
    {order : List Part} (h : Serial agrees p order q) (hp : inv p)
    (hkeep : ∀ part ∈ order, ∀ met, inv met → inv (met.perform part.call).plant) :
    ∀ part ∈ order, ∃ met, inv met ∧ (agrees met part ∨ part.Void met) := by
  induction h with
  | done =>
      intro part hpart
      cases hpart
  | @next p q first rest hfirst hrest ih =>
      intro part hpart
      rcases List.mem_cons.mp hpart with rfl | hmem
      · exact ⟨p, hp, .inl hfirst⟩
      · exact ih (hkeep first List.mem_cons_self p hp)
          (fun other hother => hkeep other (List.mem_cons_of_mem _ hother)) part hmem
  | @skip p q first rest hfirst hrest ih =>
      intro part hpart
      rcases List.mem_cons.mp hpart with rfl | hmem
      · exact ⟨p, hp, .inr hfirst⟩
      · exact ih hp (fun other hother => hkeep other (List.mem_cons_of_mem _ hother)) part hmem

/-- What calls keep true holds at the end of an order if it holds at the beginning. -/
theorem Serial.keeps {agrees : Plant → Part → Prop} {inv : Plant → Prop} {p q : Plant}
    {order : List Part} (h : Serial agrees p order q) (hp : inv p)
    (hkeep : ∀ part ∈ order, ∀ met, inv met → inv (met.perform part.call).plant) : inv q := by
  induction h with
  | done => exact hp
  | next _ _ ih =>
      exact ih (hkeep _ List.mem_cons_self _ hp)
        fun part hpart => hkeep part (List.mem_cons_of_mem _ hpart)
  | skip _ _ ih => exact ih hp fun part hpart => hkeep part (List.mem_cons_of_mem _ hpart)

/-- There is an order of all calls of the overlap that keeps the order of the ordinary ones, and
in which all answers agree. -/
def Overlap.Serializable (agrees : Plant → Part → Prop) (p : Plant) (hold : Call)
    (script : List Step) : Prop :=
  ∃ order : List Part,
    order.Perm (parts p hold script) ∧
    order.filter (fun part => part.role = .ordinary) =
      (begun p hold).ordinaryParts script (run p hold script).during ∧
    Serial agrees p order (run p hold script).plant

/-! ### Looking for an order -/

section

variable {agrees : Plant → Part → Prop}

theorem serial_nil_iff {p q : Plant} : Serial agrees p [] q ↔ p = q := by
  constructor
  · rintro ⟨⟩
    rfl
  · rintro rfl
    exact .done

theorem serial_cons_iff {p q : Plant} {part : Part} {rest : List Part} :
    Serial agrees p (part :: rest) q ↔
      agrees p part ∧ Serial agrees (p.perform part.call).plant rest q ∨
        part.Void p ∧ Serial agrees p rest q := by
  constructor
  · intro h
    cases h with
    | next hpart hrest => exact .inl ⟨hpart, hrest⟩
    | skip hpart hrest => exact .inr ⟨hpart, hrest⟩
  · rintro (⟨hpart, hrest⟩ | ⟨hpart, hrest⟩)
    · exact .next hpart hrest
    · exact .skip hpart hrest

instance (p : Plant) (part : Part) : Decidable (part.Exact p) :=
  inferInstanceAs (Decidable (_ = _))

instance (p : Plant) : (part : Part) → Decidable (part.Void p)
  | ⟨_, .hostWordOf _, _, _⟩ => inferInstanceAs (Decidable (_ = _))
  | ⟨_, .setHostWord .., _, _⟩ => inferInstanceAs (Decidable (_ = _))
  | ⟨_, .set .., _, _⟩ => inferInstanceAs (Decidable (_ ∧ _))
  | ⟨_, .get .., _, _⟩ | ⟨_, .getAs .., _, _⟩ | ⟨_, .getAll _, _, _⟩ | ⟨_, .probe .., _, _⟩
  | ⟨_, .numElements _, _, _⟩ | ⟨_, .elementSize .., _, _⟩ | ⟨_, .seedOf _, _, _⟩
  | ⟨_, .flagsOf _, _, _⟩ | ⟨_, .setFlags .., _, _⟩ | ⟨_, .has _, _, _⟩ | ⟨_, .delete _, _, _⟩
  | ⟨_, .free, _, _⟩ | ⟨_, .keys, _, _⟩ | ⟨_, .length, _, _⟩ | ⟨_, .isEmpty, _, _⟩
  | ⟨_, .isDefunct, _, _⟩ | ⟨_, .isDebug, _, _⟩ | ⟨_, .type, _, _⟩ | ⟨_, .views, _, _⟩
  | ⟨_, .exported _, _, _⟩ | ⟨_, .describe, _, _⟩ => .isFalse id

variable [∀ p part, Decidable (agrees p part)]

instance decidableSerial : (p : Plant) → (order : List Part) → (q : Plant) →
    Decidable (Serial agrees p order q)
  | _, [], _ => decidable_of_iff _ serial_nil_iff.symm
  | p, part :: rest, q =>
    have := decidableSerial (p.perform part.call).plant rest q
    have := decidableSerial p rest q
    decidable_of_iff _ serial_cons_iff.symm

instance (p : Plant) (hold : Call) (script : List Step) :
    Decidable (Overlap.Serializable agrees p hold script) :=
  decidable_of_iff
    (∃ order ∈ (Overlap.parts p hold script).permutations',
      order.filter (fun part => part.role = .ordinary) =
        (Overlap.begun p hold).ordinaryParts script (Overlap.run p hold script).during ∧
      Serial agrees p order (Overlap.run p hold script).plant)
    (exists_congr fun _ => and_congr_left' List.mem_permutations')

end

/-! ### What is not read at one moment -/

/-- The answer is the one that the call gives by itself, but for two kinds of call. A description
that is made while a removal waits shows the mark of the root. A read of all leaves that waits
shows the leaves that it listed when it was started, and of these some as they were then and the
others as they are at its turn. -/
inductive Part.Agrees (p : Plant) : Part → Prop
  | exact {part : Part} (h : part.Exact p) : Agrees p part
  | marked : Agrees p ⟨.ordinary, .describe, p.mark, .text p.mark.describe⟩
  | exported {order : ExportOrder} {met : Plant} {before after : List String}
    (hnames : before ++ after = met.names) :
    Agrees p ⟨.started, .exported order, met,
      .text (order.text (met.entriesOf before ++ p.entriesOf after))⟩
  | viewed {met : Plant} {before after : List String} (hnames : before ++ after = met.names) :
    Agrees p ⟨.started, .views, met,
      .views met.length met.isDefunct (before.map met.view ++ after.map p.view)⟩

end PlantStore
