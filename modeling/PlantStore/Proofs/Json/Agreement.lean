import PlantStore.Proofs.Decimal.Fewest
import PlantStore.Proofs.Json.Exported

/-! # The two exports agree

The export in the order of the chain and the sorted one are two texts of one object. They have
the same member names, the sorted one in ascending order of their bytes, and the arrays of a name
hold the same values. Only a double that lies exactly half-way between two decimals of the fewest
digits may be given by one neighbour in one export and by the other in the other. -/

namespace PlantStore

/-! ### The order of keys -/

theorem bytesLe_iff {a b : String} : bytesLe a b = true ↔ Text.utf8Bytes a ≤ Text.utf8Bytes b :=
  decide_eq_true_iff

theorem bytesLe_trans {a b c : String} (hab : bytesLe a b = true) (hbc : bytesLe b c = true) :
    bytesLe a c = true := by
  rw [bytesLe_iff] at hab hbc ⊢
  exact List.le_trans hab hbc

theorem bytesLe_total (a b : String) : (bytesLe a b || bytesLe b a) = true := by
  rw [Bool.or_eq_true, bytesLe_iff, bytesLe_iff]
  exact List.le_total _ _

namespace ExportOrder

/-- An export lists every entry once. -/
theorem perm_arrange (order : ExportOrder) (entries : List (String × List Value)) :
    (order.arrange entries).Perm entries := by
  cases order with
  | chain => exact .refl _
  | sorted => exact List.mergeSort_perm _ _

/-- The keys of a sorted export ascend strictly, if no key has two entries. -/
theorem pairwise_arrange_sorted {entries : List (String × List Value)}
    (h : (entries.map Prod.fst).Nodup) :
    ((sorted.arrange entries).map Prod.fst).Pairwise fun a b =>
      Text.utf8Bytes a < Text.utf8Bytes b := by
  have hsorted : (sorted.arrange entries).Pairwise fun a b => bytesLe a.1 b.1 = true :=
    @List.pairwise_mergeSort _ (fun a b => bytesLe a.1 b.1) (fun _ _ _ => bytesLe_trans)
      (fun _ _ => bytesLe_total _ _) entries
  have hdistinct : (sorted.arrange entries).Pairwise fun a b => a.1 ≠ b.1 :=
    List.pairwise_map.mp (((sorted.perm_arrange entries).map Prod.fst).nodup_iff.mpr h)
  rw [List.pairwise_map]
  refine (hsorted.and hdistinct).imp ?_
  rintro a b ⟨hle, hne⟩
  exact (List.le_iff_lt_or_eq.mp (bytesLe_iff.mp hle)).resolve_right
    fun heq => hne (Text.utf8Bytes_injective heq)

end ExportOrder

/-! ### Values -/

/-- What two documents say of one value. They say the same, unless the value is a double that
lies half-way between two neighbouring decimals. Both of these round to it and none with fewer
digits does, and then the first document has the upper one and the second the lower one, whose last
digit is even. -/
inductive Alike : Value → Json → Json → Prop
  | null {d : Binary64} (hfinite : d.isFinite = false) : Alike (.double d) .null .null
  | truth {v : Value} (b : Bool) : Alike v (.truth b) (.truth b)
  | text {v : Value} (s : String) : Alike v (.text s) (.text s)
  | number {v : Value} {s t : List Char} {r : ℚ} (hs : Numeral.valueOf? s = some r)
    (ht : Numeral.valueOf? t = some r) : Alike v (.number s) (.number t)
  | halfway {d : Binary64} {s t : List Char} {n : Nat} {k : Int} (hfinite : d.isFinite = true)
    (hhalf : Decimal.Halfway d.magnitude n k) (hfewest : Decimal.HasFewest d.magnitude (n + 1))
    (habove : d.magnitude.Rounds ((n + 1) * (10 : ℚ) ^ k))
    (hbelow : d.magnitude.Rounds (n * (10 : ℚ) ^ k))
    (hs : Numeral.valueOf? s = some ((if d.isNegative then -1 else 1) * ((n + 1) * (10 : ℚ) ^ k)))
    (ht : Numeral.valueOf? t = some ((if d.isNegative then -1 else 1) * (n * (10 : ℚ) ^ k))) :
    Alike (.double d) (.number s) (.number t)

/-- The numerals of a double in the two exports. -/
theorem Binary64.alike_write {d : Binary64} (hfinite : d.isFinite = true) :
    Alike (.double d) (.number (d.write ExportOrder.chain.doubles))
      (.number (d.write ExportOrder.sorted.doubles)) := by
  have hchain := d.valueOf?_write ExportOrder.chain.doubles
  have hsorted := d.valueOf?_write ExportOrder.sorted.doubles
  have hup := Decimal.rounds_shortest .up d.magnitude
  have heven := Decimal.rounds_shortest .toEven d.magnitude
  dsimp only [ExportOrder.doubles] at hchain hsorted
  rcases Decimal.shortest_cases d.magnitude with hsame | ⟨n, k, hhalf, hshortest, hbelow⟩
  · rw [hsame] at hchain
    exact .number hchain hsorted
  -- The sorted export writes the even neighbour, the other one the odd neighbour above it.
  · have habove : (Decimal.shortest .up d.magnitude).value = (n + 1) * (10 : ℚ) ^ k := by
      rw [hshortest, Decimal.value]
      push_cast
      rfl
    have hfewest := Decimal.hasFewest_shortest .up d.isDouble_magnitude
    rw [hshortest] at hfewest
    rw [habove] at hchain hup
    rw [hbelow] at hsorted heven
    exact .halfway hfinite hhalf hfewest hup heven hchain hsorted

theorem Value.alike_document (v : Value) :
    Alike v (v.document .chain) (v.document .sorted) := by
  cases v with
  | int n =>
      have hvalue := Numeral.valueOf?_signedDecimal n.toInt
      exact .number hvalue hvalue
  | int64 n =>
      have hvalue := Numeral.valueOf?_signedDecimal n.toInt
      exact .number hvalue hvalue
  | double d =>
      rw [document, document]
      cases hfinite : d.isFinite with
      | true => exact Binary64.alike_write hfinite
      | false => exact .null hfinite
  | boolean b => exact .truth b
  | string s => exact .text s
  | pointer word => exact .text _

/-- The documents of a list of values, one value after the other. -/
theorem Value.alike_documents (values : List Value) :
    List.Forall₂ (fun v pair => Alike v pair.1 pair.2) values
      ((values.map (Value.document .chain)).zip (values.map (Value.document .sorted))) := by
  induction values with
  | nil => exact .nil
  | cons v values ih => exact .cons v.alike_document ih

/-! ### Plants -/

namespace ExportOrder

/-- The members of the object that an export of entries is. -/
def members (order : ExportOrder) (entries : List (String × List Value)) :
    List (String × Json) :=
  (order.arrange entries).map fun (key, values) =>
    (key, .array (values.map (Value.document order)))

theorem names_members (order : ExportOrder) (entries : List (String × List Value)) :
    (order.members entries).map Prod.fst = (order.arrange entries).map Prod.fst := by
  rw [members, List.map_map]
  rfl

/-- A member of an export is an entry with the documents of its values. -/
theorem mem_members {order : ExportOrder} {entries : List (String × List Value)}
    {member : String × Json} (h : member ∈ order.members entries) :
    ∃ entry ∈ entries, entry.1 = member.1 ∧
      member.2 = .array (entry.2.map (Value.document order)) := by
  obtain ⟨entry, hentry, rfl⟩ := List.mem_map.mp h
  exact ⟨entry, (order.perm_arrange entries).subset hentry, rfl, rfl⟩

end ExportOrder

namespace Plant

section

variable [KeyHash]

/-- The two exports of a reachable plant read as two objects with the same names, each once. In
the sorted one the names ascend by their bytes. The arrays of a name are equally long and say the
same of each value, but for the doubles half-way between two decimals of the fewest digits. -/
theorem exports_agree {p : Plant} (hp : p.Reachable) :
    ∃ chain sorted : List (String × Json),
      Json.read? (p.exported .chain) = some (.object chain) ∧
      Json.read? (p.exported .sorted) = some (.object sorted) ∧
      (chain.map Prod.fst).Nodup ∧
      (sorted.map Prod.fst).Perm (chain.map Prod.fst) ∧
      ((sorted.map Prod.fst).Pairwise fun a b => Text.utf8Bytes a < Text.utf8Bytes b) ∧
      ∀ name a b, (name, a) ∈ chain → (name, b) ∈ sorted → ∃ values items others,
        p.getAll name = .ok values ∧ a = .array items ∧ b = .array others ∧
        items.length = others.length ∧
        List.Forall₂ (fun v pair => Alike v pair.1 pair.2) values (items.zip others) := by
  have hwf := hp.wellFormed
  have hnodup : (p.entries.map Prod.fst).Nodup := by
    rw [hwf.entries_keys]
    exact hwf.nodup_names
  refine ⟨ExportOrder.chain.members p.entries, ExportOrder.sorted.members p.entries,
    p.read?_exported .chain, p.read?_exported .sorted, ?_, ?_, ?_, ?_⟩
  · rw [ExportOrder.names_members]
    exact hnodup
  · rw [ExportOrder.names_members, ExportOrder.names_members]
    exact (ExportOrder.sorted.perm_arrange p.entries).map Prod.fst
  · rw [ExportOrder.names_members]
    exact ExportOrder.pairwise_arrange_sorted hnodup
  · intro name a b ha hb
    obtain ⟨entry, hentry, hname, rfl⟩ := ExportOrder.mem_members ha
    obtain ⟨other, hother, hname', rfl⟩ := ExportOrder.mem_members hb
    -- Both entries are what the plant answers for the name.
    have hvalues : p.getAll entry.1 = .ok entry.2 := getAll_of_mem_entries hentry
    have hvalues' : p.getAll other.1 = .ok other.2 := getAll_of_mem_entries hother
    rw [hname] at hvalues
    rw [hname'] at hvalues'
    have hsame : other.2 = entry.2 := Except.ok.inj (hvalues'.symm.trans hvalues)
    refine ⟨entry.2, _, _, hvalues, rfl, rfl, ?_, ?_⟩
    · rw [List.length_map, List.length_map, hsame]
    · rw [hsame]
      exact Value.alike_documents entry.2

end

/-- The exports of a plant with a double that is half-way between two decimals, and with keys
that stand in another order when they are sorted. -/
theorem exports_agree_halfway :
    let values : List Value := [.double ⟨0x4313373508f3bea1⟩, .double ⟨0⟩]
    let p := ((Plant.make 1 false).perform (.set "v" .double values)).plant
    p.Reachable ∧ ∃ chain sorted : List (String × Json),
      Json.read? (p.exported .chain) = some (.object chain) ∧
      Json.read? (p.exported .sorted) = some (.object sorted) ∧
      (sorted.map Prod.fst).Perm (chain.map Prod.fst) ∧
      ∀ a b, ("v", a) ∈ chain → ("v", b) ∈ sorted → ∃ items others,
        a = .array items ∧ b = .array others ∧
        List.Forall₂ (fun v pair => Alike v pair.1 pair.2) values (items.zip others) := by
  intro values p
  have hp : p.Reachable := .call (.make 1 false) _
  have hvalues : p.getAll "v" = .ok values := by decide +kernel
  obtain ⟨chain, sorted, hchain, hsorted, -, hperm, -, hagree⟩ := exports_agree hp
  refine ⟨hp, chain, sorted, hchain, hsorted, hperm, fun a b ha hb => ?_⟩
  obtain ⟨stored, items, others, hstored, hitems, hothers, -, halike⟩ := hagree "v" a b ha hb
  obtain rfl : values = stored := Except.ok.inj (hvalues.symm.trans hstored)
  exact ⟨items, others, hitems, hothers, halike⟩

/-- The two exports do not always denote the same numbers. The double 1352181370122152.25 is half
a unit of the last place away from both of its shortest decimals; one export ends in 2.3 and the
other in 2.2. -/
theorem exports_differ :
    let p := ((Plant.make 1 false).perform
      (.set "v" .double [.double ⟨0x4313373508f3bea1⟩])).plant
    p.Reachable ∧ ∃ s t a b,
      Json.read? (p.exported .chain) =
        some (.object [("type", .array [.number ['1']]), ("v", .array [.number s])]) ∧
      Json.read? (p.exported .sorted) =
        some (.object [("type", .array [.number ['1']]), ("v", .array [.number t])]) ∧
      Numeral.valueOf? s = some a ∧ Numeral.valueOf? t = some b ∧ a ≠ b := by
  intro p
  let d : Binary64 := ⟨0x4313373508f3bea1⟩
  have hentries : p.entries = [("type", [.int 1]), ("v", [.double d])] := by decide +kernel
  have hdocument (order : ExportOrder) : p.document order = .object
      [("type", .array [.number ['1']]), ("v", .array [.number (d.write order.doubles)])] := by
    have harrange : order.arrange p.entries = p.entries := by
      cases order with
      | chain => rfl
      | sorted =>
          refine List.mergeSort_of_pairwise ?_
          rw [hentries]
          decide
    have hone : Text.signedDecimal (1 : Int32).toInt = ['1'] := by decide +kernel
    have hfinite : d.isFinite = true := by decide
    rw [document, ExportOrder.document, harrange, hentries]
    simp only [List.map_cons, List.map_nil, Value.document, hone, if_pos hfinite]
  have hup : (Decimal.shortest .up d.magnitude).value = 13521813701221523 / 10 := by
    have hfound : ((List.range 17).map fun n : Nat =>
        Decimal.leadingExponent d.magnitude - (n : Int)).findSome?
        (Decimal.onGrid .up d.magnitude) = some ⟨13521813701221523, -1⟩ := by decide +kernel
    rw [Decimal.value_shortest .up (by decide), hfound, Option.getD_some, Decimal.value]
    norm_num
  have heven : (Decimal.shortest .toEven d.magnitude).value = 13521813701221522 / 10 := by
    have hfound : ((List.range 17).map fun n : Nat =>
        Decimal.leadingExponent d.magnitude - (n : Int)).findSome?
        (Decimal.onGrid .toEven d.magnitude) = some ⟨13521813701221522, -1⟩ := by decide +kernel
    rw [Decimal.value_shortest .toEven (by decide), hfound, Option.getD_some, Decimal.value]
    norm_num
  refine ⟨.call (.make 1 false) _, _, _, _, _, ?_, ?_, d.valueOf?_write ExportOrder.chain.doubles,
    d.valueOf?_write ExportOrder.sorted.doubles, ?_⟩
  · rw [read?_exported, hdocument]
  · rw [read?_exported, hdocument]
  · have hpositive : d.isNegative = false := by decide
    have htie : ExportOrder.chain.doubles.tie = .up := rfl
    have htie' : ExportOrder.sorted.doubles.tie = .toEven := rfl
    rw [hpositive, htie, htie', hup, heven]
    norm_num

end Plant
end PlantStore
