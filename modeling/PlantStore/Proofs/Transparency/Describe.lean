import PlantStore.Proofs.Transparency.Recast

/-! # What a description shows

The description of a plant shows how the store is built at two places: there is the hash of the
root among its fields, and there is the question whether it is a debug plant. Apart from them,
plants that differ in these things only have one description. -/

namespace PlantStore

namespace Text

theorem fieldList_cons (field : String × String) {fields : List (String × String)}
    (h : fields ≠ []) :
    fieldList (field :: fields) = field.1 ++ ": " ++ field.2 ++ ", " ++ fieldList fields :=
  String.intercalate_cons_of_ne_nil (by simpa using h)

/-- Two texts that are the same but for one place, where each has a word of its own. -/
def SameButFor (old new a b : String) : Prop :=
  ∃ before after, a = before ++ old ++ after ∧ b = before ++ new ++ after

namespace SameButFor

variable {old new a b : String}

theorem words (old new : String) : SameButFor old new old new :=
  ⟨"", "", by simp, by simp⟩

theorem append (h : SameButFor old new a b) (before after : String) :
    SameButFor old new (before ++ a ++ after) (before ++ b ++ after) := by
  obtain ⟨first, last, rfl, rfl⟩ := h
  exact ⟨before ++ first, last ++ after, by simp only [String.append_assoc],
    by simp only [String.append_assoc]⟩

/-- Two lists of fields with one field that differs. -/
theorem fieldList (h : SameButFor old new a b) (first : List (String × String)) (name : String)
    (last : List (String × String)) :
    SameButFor old new (fieldList (first ++ (name, a) :: last))
      (fieldList (first ++ (name, b) :: last)) := by
  induction first with
  | nil =>
      by_cases hlast : last = []
      · subst hlast
        have hfield := h.append (name ++ ": ") ""
        rw [String.append_empty, String.append_empty] at hfield
        simpa only [Text.fieldList, List.nil_append, List.map_cons, List.map_nil,
          String.intercalate_singleton] using hfield
      · have hfields := h.append (name ++ ": ") (", " ++ Text.fieldList last)
        simpa only [List.nil_append, fieldList_cons _ hlast, String.append_assoc] using hfields
  | cons field first ih =>
      have hfields := ih.append (field.1 ++ ": " ++ field.2 ++ ", ") ""
      rw [String.append_empty, String.append_empty] at hfields
      rwa [List.cons_append, List.cons_append, fieldList_cons _ (by simp),
        fieldList_cons _ (by simp)]

/-- Two records with one field that differs. -/
theorem record (h : SameButFor old new a b) (kind : String) (first : List (String × String))
    (name : String) (last : List (String × String)) :
    SameButFor old new (record kind (first ++ (name, a) :: last))
      (record kind (first ++ (name, b) :: last)) :=
  (h.fieldList first name last).append _ _

end SameButFor

end Text

open Text

/-- Of a leaf the description shows the hash at one place. -/
theorem Leaf.describe_hash (leaf : Leaf) (hash : UInt32) (next : String) :
    SameButFor (numeral leaf.hash.toNat) (numeral hash.toNat) (leaf.describe next)
      ({ leaf with hash := hash }.describe next) :=
  (SameButFor.words _ _).record "Leaf" [("key", leaf.key.describe)] "hash" _

namespace Plant

variable (p : Plant)

/-- With another hash function, the description differs in the hash of the root only. -/
theorem describe_recast (g : String → UInt32) :
    SameButFor (numeral p.root.hash.toNat) (numeral (g p.root.name).toNat) p.describe
      (p.recast g false).describe := by
  have hchain : (p.recast g false).chain.isEmpty = p.chain.isEmpty := List.isEmpty_map
  have hdebug : (p.recast g false).isDebug = p.isDebug := Bool.and_true _
  unfold describe
  rw [hchain, hdebug]
  exact (p.root.describe_hash (g p.root.name) _).record "Plant" [] "root" _

/-- The description shows at one place whether it is one of a debug plant. -/
theorem describe_isDebug (debug : Bool) :
    SameButFor (describeBool p.isDebug) (describeBool debug) p.describe
      { p with isDebug := debug }.describe :=
  (SameButFor.words _ _).record "Plant" [_, _] "debug" []

end Plant

end PlantStore
