import PlantStore.Proofs.Json.Reader

/-! # What is written is read back

A document whose numbers are numerals is read back from its text, whether slashes are escaped or
not. Characters come first, then strings, and then documents, by induction on the document. -/

namespace PlantStore
namespace Json

/-! ### Tokens -/

theorem skipBlanks_cons {c : Char} (hc : isBlank c = false) (rest : List Char) :
    skipBlanks (c :: rest) = ⟨c :: rest, Nat.le_refl _⟩ := by
  apply Subtype.ext
  show (c :: rest).dropWhile isBlank = c :: rest
  rw [List.dropWhile_cons, if_neg (by rw [hc]; exact Bool.false_ne_true)]

theorem expect_cons {token c : Char} (hc : isBlank c = false) (rest : List Char) :
    expect token (c :: rest) = if c = token then some ⟨rest, Nat.lt_succ_self _⟩ else none := by
  rw [expect, skipBlanks_cons hc]

/-- A token that comes next. -/
theorem expect_self {token : Char} (hc : isBlank token = false) (rest : List Char) :
    expect token (token :: rest) = some ⟨rest, Nat.lt_succ_self _⟩ := by
  rw [expect_cons hc, if_pos rfl]

/-- Another token comes next. -/
theorem expect_of_ne {token c : Char} (hc : isBlank c = false) (hne : c ≠ token)
    (rest : List Char) : expect token (c :: rest) = none := by
  rw [expect_cons hc, if_neg hne]

/-! ### Characters -/

theorem hexDigit?_digitChar {n : Nat} (h : n < 16) : hexDigit? (Nat.digitChar n) = some n := by
  revert n
  decide

/-- A character is escaped by a letter, or if it is a control character by its number, or it
stands for itself. -/
theorem escape_cases (escapesSlash : Bool) (c : Char) :
    (∃ mark, mark ≠ 'u' ∧ shortEscape? mark = some c ∧ escape escapesSlash c = ['\\', mark]) ∨
    (c.toNat < 32 ∧ escape escapesSlash c = '\\' :: 'u' :: '0' :: '0' :: controlDigits c) ∨
    (c ≠ '"' ∧ c ≠ '\\' ∧ ¬ c.toNat < 32 ∧ escape escapesSlash c = [c]) := by
  generalize hform : escape escapesSlash c = form
  unfold escape at hform
  -- The tests are split in the order in which they are made.
  split at hform
  next hc => exact .inl ⟨'"', by decide, by rw [hc]; rfl, hform.symm⟩
  next hquote =>
    split at hform
    next hc => exact .inl ⟨'\\', by decide, by rw [hc]; rfl, hform.symm⟩
    next hbackslash =>
      split at hform
      next hc => exact .inl ⟨'/', by decide, by rw [hc.1]; rfl, hform.symm⟩
      split at hform
      next hc => exact .inl ⟨'b', by decide, by rw [hc]; rfl, hform.symm⟩
      split at hform
      next hc => exact .inl ⟨'f', by decide, by rw [hc]; rfl, hform.symm⟩
      split at hform
      next hc => exact .inl ⟨'n', by decide, by rw [hc]; rfl, hform.symm⟩
      split at hform
      next hc => exact .inl ⟨'r', by decide, by rw [hc]; rfl, hform.symm⟩
      split at hform
      next hc => exact .inl ⟨'t', by decide, by rw [hc]; rfl, hform.symm⟩
      split at hform
      next hcontrol => exact .inr (.inl ⟨hcontrol, hform.symm⟩)
      next hplain => exact .inr (.inr ⟨hquote, hbackslash, hplain, hform.symm⟩)

theorem readUnit_controlDigits {c : Char} (hc : c.toNat < 32) (rest : List Char) :
    ∃ h, readUnit ('0' :: '0' :: (controlDigits c ++ rest)) = some (c.toNat, ⟨rest, h⟩) := by
  have hzero : hexDigit? '0' = some 0 := by decide
  have hhigh := hexDigit?_digitChar (n := c.toNat / 16) (by omega)
  have hlow := hexDigit?_digitChar (n := c.toNat % 16) (by omega)
  have hsum : ((0 * 16 + 0) * 16 + c.toNat / 16) * 16 + c.toNat % 16 = c.toNat := by omega
  refine ⟨by simp [controlDigits]; omega, ?_⟩
  simp only [controlDigits, List.cons_append, List.nil_append, readUnit, hzero, hhigh, hlow, hsum]

/-- A control character is read back from its number. -/
theorem readNumbered_controlDigits {c : Char} (hc : c.toNat < 32) (rest : List Char) :
    ∃ h, readNumbered ('0' :: '0' :: (controlDigits c ++ rest)) = some (c, ⟨rest, h⟩) := by
  obtain ⟨h, hread⟩ := readUnit_controlDigits hc rest
  -- The number is too small for a half of a surrogate pair.
  have hhigh : isHighSurrogate c.toNat = false := by
    rw [isHighSurrogate, Bool.and_eq_false_iff]
    exact .inl (decide_eq_false (by omega))
  have hlow : isLowSurrogate c.toNat = false := by
    rw [isLowSurrogate, Bool.and_eq_false_iff]
    exact .inl (decide_eq_false (by omega))
  refine ⟨h, ?_⟩
  rw [readNumbered, hread]
  simp only [hhigh, hlow, if_neg Bool.false_ne_true, Char.ofNat_toNat]

/-- Every character is read back from its form inside a string. -/
theorem readChar_escape (escapesSlash : Bool) (c : Char) (rest : List Char) :
    ∃ h, readChar (escape escapesSlash c ++ rest) = some (c, ⟨rest, h⟩) := by
  rcases escape_cases escapesSlash c with
    ⟨mark, hmark, hshort, hform⟩ | ⟨hcontrol, hform⟩ | ⟨hquote, hbackslash, hplain, hform⟩
  · rw [hform]
    show ∃ h, readChar ('\\' :: mark :: rest) = some (c, ⟨rest, h⟩)
    rw [readChar, if_pos rfl, if_neg hmark, hshort]
    exact ⟨_, rfl⟩
  · obtain ⟨h, hread⟩ := readNumbered_controlDigits hcontrol rest
    rw [hform]
    show ∃ h, readChar ('\\' :: 'u' :: '0' :: '0' :: (controlDigits c ++ rest)) =
      some (c, ⟨rest, h⟩)
    rw [readChar, if_pos rfl, if_pos rfl, hread]
    exact ⟨_, rfl⟩
  · rw [hform]
    show ∃ h, readChar (c :: rest) = some (c, ⟨rest, h⟩)
    rw [readChar.eq_def]
    dsimp only
    rw [if_neg hbackslash, if_neg (by simp [hquote, hplain])]
    exact ⟨_, rfl⟩

/-! ### Strings -/

/-- A string starts with the character that is read first. -/
theorem readChars_of_readChar {cs : List Char} {c : Char}
    {rest : { rest : List Char // rest.length < cs.length }} (h : readChar cs = some (c, rest))
    {chars : List Char} {last : { last : List Char // last.length < rest.1.length }}
    (hrest : readChars rest.1 = some (chars, last)) :
    ∃ hlast, readChars cs = some (c :: chars, ⟨last.1, hlast⟩) := by
  rw [readChars.eq_def]
  split
  next inner =>
    -- No character is read where the string ends.
    rw [readChar.eq_def] at h
    cases h
  · rw [h]
    dsimp only
    rw [hrest]
    exact ⟨Nat.lt_trans last.2 rest.2, rfl⟩

theorem readChars_flatMap (escapesSlash : Bool) (chars rest : List Char) :
    ∃ h, readChars (chars.flatMap (escape escapesSlash) ++ '"' :: rest) =
      some (chars, ⟨rest, h⟩) := by
  induction chars with
  | nil =>
      rw [List.flatMap_nil, List.nil_append, readChars.eq_def]
      exact ⟨_, rfl⟩
  | cons c chars ih =>
      obtain ⟨hlast, hrest⟩ := ih
      obtain ⟨hchar, hread⟩ := readChar_escape escapesSlash c
        (chars.flatMap (escape escapesSlash) ++ '"' :: rest)
      rw [List.flatMap_cons, List.append_assoc]
      exact readChars_of_readChar hread hrest

/-- The name of a member is read back. -/
theorem readName_writeString (escapesSlash : Bool) (name : String) (rest : List Char) :
    ∃ h, readName (writeString escapesSlash name ++ ':' :: rest) = some (name, ⟨rest, h⟩) := by
  obtain ⟨h, hread⟩ := readChars_flatMap escapesSlash name.toList (':' :: rest)
  have htext : writeString escapesSlash name ++ ':' :: rest =
      '"' :: (name.toList.flatMap (escape escapesSlash) ++ '"' :: ':' :: rest) := by
    simp [writeString]
  rw [htext, readName, expect_self (by decide)]
  dsimp only
  rw [hread]
  dsimp only
  rw [expect_self (by decide), Option.map_some, String.ofList_toList]
  exact ⟨_, rfl⟩

/-! ### Values that hold no others -/

/-- A document whose numbers are all numerals. -/
inductive Valid : Json → Prop
  | null : Valid null
  | truth (b : Bool) : Valid (truth b)
  | number {n : Numeral} (h : n.WellFormed) : Valid (number n.text)
  | text (s : String) : Valid (text s)
  | array {items : List Json} (h : ∀ item ∈ items, Valid item) : Valid (array items)
  | object {members : List (String × Json)} (h : ∀ member ∈ members, Valid member.2) :
    Valid (object members)

/-- A numeral starts with a minus sign or a digit, and so with no other token. -/
theorem numeral_head {n : Numeral} (h : n.WellFormed) :
    ∃ c cs, n.text = c :: cs ∧ (c = '-' ∨ c.isDigit = true) ∧ isBlank c = false ∧
      c ≠ '[' ∧ c ≠ ']' ∧ c ≠ '\x7b' ∧ c ≠ '"' := by
  obtain ⟨hne, hall⟩ := h.whole.isDigits
  obtain ⟨d, ds, hwhole⟩ := List.exists_cons_of_ne_nil hne
  have hd : d.isDigit = true := hall d (hwhole ▸ List.mem_cons_self)
  have hother : ∀ token : Char, token.isDigit = false → d ≠ token := by
    intro token htoken heq
    rw [heq, htoken] at hd
    cases hd
  rw [Numeral.text, hwhole]
  cases n.negative with
  | true => exact ⟨'-', _, rfl, .inl rfl, by decide, by decide, by decide, by decide, by decide⟩
  | false =>
      have hblank : isBlank d = false := by simp [isBlank, hother]
      exact ⟨d, _, rfl, .inr hd, hblank, hother _ (by decide), hother _ (by decide),
        hother _ (by decide), hother _ (by decide)⟩

theorem readNumber_text {n : Numeral} (h : n.WellFormed) {rest : List Char}
    (hrest : Numeral.Stops rest) :
    ∃ hlast, readNumber (n.text ++ rest) = some (number n.text, ⟨rest, hlast⟩) := by
  rw [readNumber]
  split
  next hscan =>
    rw [h.scan_text hrest] at hscan
    cases hscan
  next m last hscan =>
    rw [h.scan_text hrest] at hscan
    have hshorter := Numeral.length_lt_of_scan (h.scan_text hrest)
    obtain ⟨rfl, rfl⟩ : n = m ∧ rest = last := by simpa using hscan
    exact ⟨hshorter, rfl⟩

/-- What starts neither an array nor an object is read as a scalar. -/
theorem readValue_of_scalar {c : Char} {cs : List Char} (hblank : isBlank c = false)
    (harray : c ≠ '[') (hobject : c ≠ '\x7b') {document : Json} {rest : List Char}
    (hread : ∃ h, readScalar (c :: cs) = some (document, ⟨rest, h⟩)) :
    ∃ h, readValue (c :: cs) = some (document, ⟨rest, h⟩) := by
  obtain ⟨h, hread⟩ := hread
  rw [readValue, expect_of_ne hblank harray]
  dsimp only
  rw [expect_of_ne hblank hobject]
  dsimp only
  rw [skipBlanks_cons hblank]
  dsimp only
  rw [hread]
  exact ⟨_, rfl⟩

theorem readValue_text (escapesSlash : Bool) (s : String) (rest : List Char) :
    ∃ h, readValue (writeString escapesSlash s ++ rest) = some (text s, ⟨rest, h⟩) := by
  obtain ⟨h, hread⟩ := readChars_flatMap escapesSlash s.toList rest
  have htext : writeString escapesSlash s ++ rest =
      '"' :: (s.toList.flatMap (escape escapesSlash) ++ '"' :: rest) := by simp [writeString]
  rw [htext]
  apply readValue_of_scalar (by decide) (by decide) (by decide)
  rw [readScalar, if_pos rfl, hread, Option.map_some]
  dsimp only
  rw [String.ofList_toList]
  exact ⟨_, rfl⟩

theorem readValue_number {n : Numeral} (hn : n.WellFormed) {rest : List Char}
    (hrest : Numeral.Stops rest) :
    ∃ h, readValue (n.text ++ rest) = some (number n.text, ⟨rest, h⟩) := by
  have hread := readNumber_text hn hrest
  obtain ⟨c, cs, htext, hc, hblank, harray, -, hobject, hquote⟩ := numeral_head hn
  rw [htext, List.cons_append] at hread ⊢
  apply readValue_of_scalar hblank harray hobject
  rw [readScalar, if_neg hquote, if_pos hc]
  exact hread

/-! ### Documents -/

/-- The text of a document starts with a character that is neither blank nor the end of an
array. -/
theorem Valid.head {document : Json} (h : Valid document) (escapesSlash : Bool) :
    ∃ c cs, document.write escapesSlash = c :: cs ∧ isBlank c = false ∧ c ≠ ']' := by
  cases h with
  | null => exact ⟨'n', _, by rw [write], by decide, by decide⟩
  | truth b =>
      cases b with
      | true => exact ⟨'t', _, by rw [write], by decide, by decide⟩
      | false => exact ⟨'f', _, by rw [write], by decide, by decide⟩
  | number hn =>
      obtain ⟨c, cs, htext, -, hblank, -, hend, -, -⟩ := numeral_head hn
      exact ⟨c, cs, by rw [write, htext], hblank, hend⟩
  | text s => exact ⟨'"', _, by rw [write, writeString], by decide, by decide⟩
  | array hitems => exact ⟨'[', _, by rw [write], by decide, by decide⟩
  | object hmembers => exact ⟨'\x7b', _, by rw [write], by decide, by decide⟩

/-- A document is read back from its text, wherever a numeral would end. -/
def ReadsBack (escapesSlash : Bool) (document : Json) : Prop :=
  ∀ rest, Numeral.Stops rest →
    ∃ h, readValue (document.write escapesSlash ++ rest) = some (document, ⟨rest, h⟩)

theorem stops_cons {c : Char} (h : c.isDigit = false ∧ c ≠ '.' ∧ c ≠ 'e' ∧ c ≠ 'E')
    (rest : List Char) : Numeral.Stops (c :: rest) := by
  intro d hd
  obtain rfl : c = d := by simpa using hd
  exact h

theorem readItems_writeItems {escapesSlash : Bool} {items : List Json} (hne : items ≠ [])
    (hitems : ∀ item ∈ items, ReadsBack escapesSlash item) (rest : List Char) :
    ∃ h, readItems (writeItems escapesSlash items ++ ']' :: rest) = some (items, ⟨rest, h⟩) := by
  induction items with
  | nil => exact absurd rfl hne
  | cons item items ih =>
      have hitem := hitems item List.mem_cons_self
      cases items with
      | nil =>
          obtain ⟨h, hread⟩ := hitem (']' :: rest) (stops_cons (by decide) _)
          rw [writeItems, readItems, hread]
          dsimp only
          rw [expect_self (by decide)]
          exact ⟨_, rfl⟩
      | cons next items =>
          -- The item is read with all that follows it, then the comma, then the other items.
          obtain ⟨h, hread⟩ :=
            hitem (',' :: (writeItems escapesSlash (next :: items) ++ ']' :: rest))
              (stops_cons (by decide) _)
          obtain ⟨hmore, hreadMore⟩ := ih (List.cons_ne_nil _ _)
            fun later hlater => hitems later (List.mem_cons_of_mem _ hlater)
          rw [writeItems, List.append_assoc, List.cons_append, readItems, hread]
          dsimp only
          rw [expect_of_ne (by decide) (by decide), expect_self (by decide)]
          dsimp only
          rw [hreadMore]
          exact ⟨_, rfl⟩

theorem readMembers_writeMembers {escapesSlash : Bool} {members : List (String × Json)}
    (hne : members ≠ []) (hmembers : ∀ member ∈ members, ReadsBack escapesSlash member.2)
    (rest : List Char) :
    ∃ h, readMembers (writeMembers escapesSlash members ++ '\x7d' :: rest) =
      some (members, ⟨rest, h⟩) := by
  induction members with
  | nil => exact absurd rfl hne
  | cons member members ih =>
      obtain ⟨name, document⟩ := member
      have hdocument : ReadsBack escapesSlash document :=
        hmembers (name, document) List.mem_cons_self
      -- The last member ends at the brace, every other one at a comma.
      cases members with
      | nil =>
          obtain ⟨h, hread⟩ := hdocument ('\x7d' :: rest) (stops_cons (by decide) _)
          obtain ⟨hname, hreadName⟩ := readName_writeString escapesSlash name
            (document.write escapesSlash ++ '\x7d' :: rest)
          rw [writeMembers, List.append_assoc, List.cons_append, readMembers, hreadName]
          dsimp only
          rw [hread]
          dsimp only
          rw [expect_self (by decide)]
          exact ⟨_, rfl⟩
      | cons next members =>
          obtain ⟨h, hread⟩ :=
            hdocument (',' :: (writeMembers escapesSlash (next :: members) ++ '\x7d' :: rest))
              (stops_cons (by decide) _)
          obtain ⟨hname, hreadName⟩ := readName_writeString escapesSlash name
            (document.write escapesSlash ++
              ',' :: (writeMembers escapesSlash (next :: members) ++ '\x7d' :: rest))
          obtain ⟨hmore, hreadMore⟩ := ih (List.cons_ne_nil _ _)
            fun later hlater => hmembers later (List.mem_cons_of_mem _ hlater)
          rw [writeMembers, List.append_assoc, List.cons_append, List.append_assoc,
            List.cons_append, readMembers, hreadName]
          dsimp only
          rw [hread]
          dsimp only
          rw [expect_of_ne (by decide) (by decide), expect_self (by decide)]
          dsimp only
          rw [hreadMore]
          exact ⟨_, rfl⟩

theorem readsBack_array {escapesSlash : Bool} {items : List Json}
    (hvalid : ∀ item ∈ items, Valid item)
    (hitems : ∀ item ∈ items, ReadsBack escapesSlash item) :
    ReadsBack escapesSlash (array items) := by
  intro rest hrest
  rw [write, List.cons_append, List.append_assoc, List.singleton_append, readValue,
    expect_self (by decide)]
  dsimp only
  cases items with
  | nil =>
      rw [writeItems, List.nil_append, expect_self (by decide)]
      exact ⟨_, rfl⟩
  | cons item items =>
      obtain ⟨h, hread⟩ := readItems_writeItems (List.cons_ne_nil item items) hitems rest
      -- The first item does not look like the end of the array.
      have hopen : expect ']' (writeItems escapesSlash (item :: items) ++ ']' :: rest) = none := by
        obtain ⟨c, cs, hhead, hblank, hne⟩ := (hvalid item List.mem_cons_self).head escapesSlash
        cases items with
        | nil =>
            rw [writeItems, hhead, List.cons_append]
            exact expect_of_ne hblank hne _
        | cons next items =>
            rw [writeItems, hhead, List.cons_append, List.cons_append]
            exact expect_of_ne hblank hne _
      rw [hopen]
      dsimp only
      rw [hread]
      exact ⟨_, rfl⟩

theorem readsBack_object {escapesSlash : Bool} {members : List (String × Json)}
    (hmembers : ∀ member ∈ members, ReadsBack escapesSlash member.2) :
    ReadsBack escapesSlash (object members) := by
  intro rest hrest
  rw [write, List.cons_append, List.append_assoc, List.singleton_append, readValue,
    expect_of_ne (by decide) (by decide)]
  dsimp only
  rw [expect_self (by decide)]
  dsimp only
  cases members with
  | nil =>
      rw [writeMembers, List.nil_append, expect_self (by decide)]
      exact ⟨_, rfl⟩
  | cons member members =>
      obtain ⟨h, hread⟩ := readMembers_writeMembers (List.cons_ne_nil member members) hmembers rest
      -- A name begins with a quote, so the object is not taken for an empty one.
      have hopen : expect '\x7d'
          (writeMembers escapesSlash (member :: members) ++ '\x7d' :: rest) = none := by
        obtain ⟨name, document⟩ := member
        cases members with
        | nil =>
            rw [writeMembers, writeString, List.cons_append, List.cons_append]
            exact expect_of_ne (by decide) (by decide) _
        | cons next members =>
            rw [writeMembers, writeString, List.cons_append, List.cons_append]
            exact expect_of_ne (by decide) (by decide) _
      rw [hopen]
      dsimp only
      rw [hread]
      exact ⟨_, rfl⟩

/-- Every document whose numbers are numerals is read back from its text. -/
theorem Valid.readsBack {document : Json} (h : Valid document) (escapesSlash : Bool) :
    ReadsBack escapesSlash document := by
  induction h with
  | null =>
      intro rest hrest
      rw [write]
      exact readValue_of_scalar (by decide) (by decide) (by decide) ⟨_, rfl⟩
  | truth b =>
      intro rest hrest
      cases b with
      | true =>
          rw [write]
          exact readValue_of_scalar (by decide) (by decide) (by decide) ⟨_, rfl⟩
      | false =>
          rw [write]
          exact readValue_of_scalar (by decide) (by decide) (by decide) ⟨_, rfl⟩
  | number hn =>
      intro rest hrest
      rw [write]
      exact readValue_number hn hrest
  | text s =>
      intro rest hrest
      rw [write]
      exact readValue_text escapesSlash s rest
  | array hitems ih => exact readsBack_array hitems ih
  | object hmembers ih => exact readsBack_object ih

/-- A text that is written is one document, and reads as the one that was written. -/
theorem Valid.read?_write {document : Json} (h : Valid document) (escapesSlash : Bool) :
    read? (String.ofList (document.write escapesSlash)) = some document := by
  have hread := h.readsBack escapesSlash [] (fun c hc => by cases hc)
  rw [List.append_nil] at hread
  obtain ⟨hlast, hread⟩ := hread
  rw [read?, String.toList_ofList, readWhole, hread]
  rfl

end Json
end PlantStore
