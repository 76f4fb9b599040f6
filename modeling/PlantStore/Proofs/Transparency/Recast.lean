import PlantStore.Call
import PlantStore.Proofs.Lookup

/-! # Another hash, and no reports

Two stores may differ in how they hash keys and in whether they report calls. A plant of the one is
recast as a plant of the other by hashing all names anew and, if it is to be quiet, by making it no
debug plant. Every operation on the recast plant has the outcome of the operation on the plant,
recast. What the operations rely on is that each leaf stores the hash of its name, and then only
names decide. -/

namespace PlantStore

/-- The leaf with the hash of its name under another function. -/
def Leaf.recast (g : String → UInt32) (leaf : Leaf) : Leaf := { leaf with hash := g leaf.name }

/-- The plant with all names hashed by another function, and quiet if need be. -/
def Plant.recast (g : String → UInt32) (quiet : Bool) (p : Plant) : Plant where
  root := p.root.recast g
  chain := p.chain.map (Leaf.recast g)
  isDebug := p.isDebug && !quiet

/-- The events that are left if the calls are not to be reported. -/
def heard (quiet : Bool) (events : List Event) : List Event :=
  if quiet then events.filter fun event => event.level ≠ .debug else events

/-- The outcome with its plant recast, and with the events that are left. -/
def Outcome.recast {α : Type} (g : String → UInt32) (quiet : Bool) (o : Outcome α) : Outcome α :=
  ⟨o.answer, o.plant.recast g quiet, heard quiet o.events⟩

/-! ### Events -/

@[simp] theorem heard_nil (quiet : Bool) : heard quiet [] = [] := by
  cases quiet <;> rfl

theorem heard_append (quiet : Bool) (a b : List Event) :
    heard quiet (a ++ b) = heard quiet a ++ heard quiet b := by
  cases quiet with
  | false => rfl
  | true => exact List.filter_append _ _

/-- What every plant reports is heard. -/
theorem heard_of_forall_ne {quiet : Bool} {events : List Event}
    (h : ∀ event ∈ events, event.level ≠ .debug) : heard quiet events = events := by
  cases quiet with
  | false => rfl
  | true => exact List.filter_eq_self.mpr fun event hevent => decide_eq_true (h event hevent)

namespace Plant

/-- Each leaf stores the hash of its name. -/
def Hashed [KeyHash] (p : Plant) : Prop := ∀ leaf ∈ p.leaves, leaf.hash = KeyHash.hash leaf.name

variable (g : String → UInt32) (quiet : Bool) (p : Plant)

/-! ### The plant as a whole -/

@[simp] theorem root_recast : (p.recast g quiet).root = p.root.recast g := rfl

@[simp] theorem chain_recast : (p.recast g quiet).chain = p.chain.map (Leaf.recast g) := rfl

@[simp] theorem isDefunct_recast : (p.recast g quiet).isDefunct = p.isDefunct := rfl

/-- A report that only a debug plant makes is not heard of a quiet one. -/
theorem report_recast {event : Event} (h : event.level = .debug) :
    (p.recast g quiet).report event = heard quiet (p.report event) := by
  rw [report, report, recast, heard]
  cases hdebug : p.isDebug <;> cases quiet <;> simp [h]

@[simp] theorem names_recast : (p.recast g quiet).names = p.names := by
  have hchain : (p.chain.map (Leaf.recast g)).map Leaf.name = p.chain.map Leaf.name := by
    rw [List.map_map]
    rfl
  rw [names, names, chain_recast, hchain]
  rfl

@[simp] theorem length_recast : (p.recast g quiet).length = p.length := by
  rw [length, length, chain_recast, List.length_map]
  rfl

theorem leafAt?_recast (place : Place) :
    (p.recast g quiet).leafAt? place = (p.leafAt? place).map (Leaf.recast g) := by
  cases place with
  | root => rfl
  | link index => exact List.getElem?_map

theorem unmark_recast : (p.recast g quiet).unmark = p.unmark.recast g quiet := rfl

variable [KeyHash]

/-- A plant is its own recast form exactly if each leaf stores the hash of its name. -/
theorem hashed_iff : p.Hashed ↔ p.recast KeyHash.hash false = p := by
  constructor
  · intro h
    have hleaf : ∀ leaf ∈ p.leaves, leaf.recast KeyHash.hash = leaf := by
      intro leaf hmem
      rw [Leaf.recast, ← h leaf hmem]
    have hchain : p.chain.map (Leaf.recast KeyHash.hash) = p.chain := by
      conv_rhs => rw [← List.map_id p.chain]
      exact List.map_congr_left fun leaf hmem => hleaf leaf (List.mem_cons_of_mem _ hmem)
    rw [recast, hchain, hleaf p.root List.mem_cons_self, Bool.not_false, Bool.and_true]
  · intro hsame leaf hmem
    have hleaf : leaf.recast KeyHash.hash = leaf := by
      rcases List.mem_cons.mp hmem with rfl | hmem
      · exact congrArg Plant.root hsame
      · have hchain : p.chain.map (Leaf.recast KeyHash.hash) = p.chain.map id :=
          (congrArg Plant.chain hsame).trans (List.map_id _).symm
        exact List.map_inj_left.mp hchain leaf hmem
    exact (congrArg Leaf.hash hleaf).symm

/-- An operation that commutes with hashing all names anew leaves a plant whose leaves store the
hashes of their names. -/
theorem Hashed.of_recast {p : Plant} (h : p.Hashed) (f : Plant → Plant)
    (hf : f (p.recast KeyHash.hash false) = (f p).recast KeyHash.hash false) : (f p).Hashed := by
  rw [p.hashed_iff.mp h] at hf
  exact (hashed_iff _).mpr hf.symm

/-! ### Searching -/

section

variable {p} (h : p.Hashed)

include h

/-- A search comes to the same place, whatever the hash function. -/
theorem Hashed.place?_recast (key : String) :
    @place? ⟨g⟩ (p.recast g quiet) key = p.place? key := by
  have hroot : @Leaf.answersTo (p.root.recast g) key (g key) =
      p.root.answersTo key (KeyHash.hash key) := by
    rw [Leaf.answersTo_eq (h p.root List.mem_cons_self)]
    exact @Leaf.answersTo_eq ⟨g⟩ (p.root.recast g) rfl key
  have hchain : (p.chain.map (Leaf.recast g)).findIdx? (·.answersTo key (g key)) =
      p.chain.findIdx? (·.answersTo key (KeyHash.hash key)) := by
    rw [Leaf.findIdx?_answersTo fun leaf hleaf => h leaf (List.mem_cons_of_mem _ hleaf)]
    refine (@Leaf.findIdx?_answersTo ⟨g⟩ _ ?_ key).trans ?_
    · intro leaf hleaf
      obtain ⟨old, -, rfl⟩ := List.mem_map.mp hleaf
      rfl
    · rw [List.findIdx?_map]
      rfl
  simp only [place?]
  rw [← hroot, ← hchain]
  rfl

theorem Hashed.find?_recast (key : String) :
    @find? ⟨g⟩ (p.recast g quiet) key = (p.find? key).map (Leaf.recast g) := by
  unfold find?
  rw [h.place?_recast]
  cases p.place? key with
  | none => rfl
  | some place => exact p.leafAt?_recast g quiet place

theorem Hashed.has_recast (key : String) : @has ⟨g⟩ (p.recast g quiet) key = p.has key := by
  unfold has
  rw [h.find?_recast, Option.isSome_map]

theorem Hashed.ask_recast {α : Type} {question : Leaf → Result α}
    (hq : ∀ leaf, question (Leaf.recast g leaf) = question leaf) (key : String) :
    @ask ⟨g⟩ α (p.recast g quiet) key question = p.ask key question := by
  unfold ask
  rw [h.find?_recast]
  cases p.find? key with
  | none => rfl
  | some leaf => exact hq leaf

theorem Hashed.askOr_recast {α : Type} {question : Leaf → α}
    (hq : ∀ leaf, question (Leaf.recast g leaf) = question leaf) (key : String) (absent : α) :
    @askOr ⟨g⟩ α (p.recast g quiet) key absent question = p.askOr key absent question := by
  unfold askOr
  rw [h.find?_recast]
  cases p.find? key with
  | none => rfl
  | some leaf => exact hq leaf

theorem Hashed.get_recast (key : String) (index : Nat) :
    @get ⟨g⟩ (p.recast g quiet) key index = p.get key index :=
  h.ask_recast g quiet (fun _ => rfl) key

theorem Hashed.getAll_recast (key : String) :
    @getAll ⟨g⟩ (p.recast g quiet) key = p.getAll key :=
  h.ask_recast g quiet (fun _ => rfl) key

theorem Hashed.probe_recast (key : String) (index : Nat) :
    @probe ⟨g⟩ (p.recast g quiet) key index = p.probe key index :=
  h.ask_recast g quiet (fun _ => rfl) key

theorem Hashed.numElements_recast (key : String) :
    @numElements ⟨g⟩ (p.recast g quiet) key = p.numElements key :=
  h.askOr_recast g quiet (fun _ => rfl) key 0

theorem Hashed.elementSize_recast (key : String) (index : Nat) :
    @elementSize ⟨g⟩ (p.recast g quiet) key index = p.elementSize key index :=
  h.askOr_recast g quiet (fun _ => rfl) key 0

theorem Hashed.seedOf_recast (key : String) :
    @seedOf ⟨g⟩ (p.recast g quiet) key = p.seedOf key := by
  apply h.askOr_recast
  intro leaf
  rfl

theorem Hashed.flagsOf_recast (key : String) :
    @flagsOf ⟨g⟩ (p.recast g quiet) key = p.flagsOf key := by
  apply h.askOr_recast
  intro leaf
  rfl

theorem Hashed.hostWordOf_recast (key : String) :
    @hostWordOf ⟨g⟩ (p.recast g quiet) key = p.hostWordOf key :=
  h.ask_recast g quiet (fun _ => rfl) key

theorem Hashed.getAs_recast (kind : ValueKind) (key : String) :
    @getAs ⟨g⟩ (p.recast g quiet) kind key = p.getAs kind key := by
  unfold getAs
  rw [h.get_recast]

theorem Hashed.type_recast : @type ⟨g⟩ (p.recast g quiet) = p.type := by
  unfold type
  rw [h.get_recast]

theorem Hashed.getEvents_recast (key : String) (index : Nat) :
    @getEvents ⟨g⟩ (p.recast g quiet) key index = heard quiet (p.getEvents key index) := by
  unfold getEvents
  rw [h.find?_recast]
  cases p.find? key with
  | none => exact (heard_nil quiet).symm
  | some leaf =>
      show (if index < leaf.elements.length then _ else _) = heard quiet (if _ then _ else _)
      split
      · exact p.report_recast g quiet rfl
      · exact (heard_nil quiet).symm

theorem Hashed.view_recast (key : String) :
    @view ⟨g⟩ (p.recast g quiet) key = p.view key := by
  simp only [view, h.seedOf_recast, h.flagsOf_recast, h.numElements_recast, h.getAll_recast,
    h.hostWordOf_recast]
  congr 1
  exact List.map_congr_left fun index _ => h.elementSize_recast g quiet key index

theorem Hashed.map_view_recast (keys : List String) :
    keys.map (@view ⟨g⟩ (p.recast g quiet)) = keys.map p.view :=
  List.map_congr_left fun key _ => h.view_recast g quiet key

theorem Hashed.views_recast : @views ⟨g⟩ (p.recast g quiet) = p.views := by
  unfold views
  rw [names_recast]
  exact h.map_view_recast g quiet p.names

theorem Hashed.entriesOf_recast (keys : List String) :
    @entriesOf ⟨g⟩ (p.recast g quiet) keys = p.entriesOf keys := by
  simp only [entriesOf, h.getAll_recast]

theorem Hashed.exported_recast (order : ExportOrder) :
    @exported ⟨g⟩ (p.recast g quiet) order = p.exported order := by
  simp only [exported, entries, names_recast, h.entriesOf_recast]

end

end Plant

end PlantStore
