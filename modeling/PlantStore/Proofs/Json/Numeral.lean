import Mathlib.Data.Rat.Defs
import Mathlib.Algebra.Order.Field.Rat
import Mathlib.Data.List.TakeWhile
import Mathlib.Tactic.Ring
import PlantStore.Decimal.Layout

/-! # Numerals

Numbers as RFC 8259 writes them: a minus sign, a whole part without leading zeros, digits after a
point and an exponent, of which only the whole part has to be there. A numeral stands for a
rational number. The scanner takes the longest numeral at the start of a text, and takes back
exactly what was written. -/

namespace PlantStore

/-- The exponent of a numeral. -/
structure Numeral.Exponent where
  marker : Char
  sign : List Char
  digits : List Char

/-- The parts of a number. -/
structure Numeral where
  negative : Bool
  whole : List Char
  /-- The digits after the point; without them there is no point. -/
  fraction : List Char
  exponent : Option Numeral.Exponent

namespace Numeral

/-! ### Texts and values -/

/-- The text of an exponent. -/
def Exponent.text (e : Exponent) : List Char := e.marker :: (e.sign ++ e.digits)

/-- The power of ten. -/
def Exponent.value (e : Exponent) : Int :=
  if e.sign = ['-'] then -Nat.ofDigitChars 10 e.digits 0 else Nat.ofDigitChars 10 e.digits 0

/-- The digits after the point, with the point. -/
def fractionText (fraction : List Char) : List Char :=
  if fraction = [] then [] else '.' :: fraction

/-- The exponent, if there is one. -/
def exponentText : Option Exponent → List Char
  | none => []
  | some e => e.text

/-- The text of a numeral. -/
def text (n : Numeral) : List Char :=
  (if n.negative then ['-'] else []) ++
    (n.whole ++ (fractionText n.fraction ++ exponentText n.exponent))

/-- The number that a numeral stands for. -/
def value (n : Numeral) : ℚ :=
  (if n.negative then -1 else 1) * Nat.ofDigitChars 10 (n.whole ++ n.fraction) 0 *
    (10 : ℚ) ^ ((n.exponent.elim 0 Exponent.value : Int) - n.fraction.length)

/-! ### Which numerals are allowed -/

/-- All characters are decimal digits, and there is one. -/
def IsDigits (ds : List Char) : Prop := ds ≠ [] ∧ ∀ c ∈ ds, c.isDigit = true

/-- A whole part has no leading zero, unless it is zero. -/
def IsWhole (ds : List Char) : Prop := ds = ['0'] ∨ IsDigits ds ∧ ds.head? ≠ some '0'

structure Exponent.WellFormed (e : Exponent) : Prop where
  marker : e.marker = 'e' ∨ e.marker = 'E'
  sign : e.sign = [] ∨ e.sign = ['+'] ∨ e.sign = ['-']
  digits : IsDigits e.digits

/-- The numeral obeys the grammar. -/
structure WellFormed (n : Numeral) : Prop where
  whole : IsWhole n.whole
  fraction : ∀ c ∈ n.fraction, c.isDigit = true
  exponent : ∀ e ∈ n.exponent, e.WellFormed

theorem IsWhole.isDigits {ds : List Char} (h : IsWhole ds) : IsDigits ds := by
  rcases h with rfl | ⟨hds, -⟩
  · refine ⟨by simp, ?_⟩
    intro c hc
    rw [List.mem_singleton.mp hc]
    decide
  · exact hds

/-! ### Scanning -/

/-- The digits at the start of a text; there has to be one. -/
def scanDigits (cs : List Char) : Option (List Char × List Char) :=
  if cs.takeWhile Char.isDigit = [] then none
  else some (cs.takeWhile Char.isDigit, cs.dropWhile Char.isDigit)

def scanMinus : List Char → Bool × List Char
  | '-' :: cs => (true, cs)
  | cs => (false, cs)

def scanWhole : List Char → Option (List Char × List Char)
  | '0' :: cs => some (['0'], cs)
  | cs => scanDigits cs

def scanFraction : List Char → Option (List Char × List Char)
  | '.' :: cs => scanDigits cs
  | cs => some ([], cs)

def scanSign : List Char → List Char × List Char
  | '+' :: cs => (['+'], cs)
  | '-' :: cs => (['-'], cs)
  | cs => ([], cs)

def scanExponent : List Char → Option (Option Exponent × List Char)
  | [] => some (none, [])
  | c :: cs =>
    if c = 'e' ∨ c = 'E' then
      (scanDigits (scanSign cs).2).map fun (digits, rest) =>
        (some ⟨c, (scanSign cs).1, digits⟩, rest)
    else some (none, c :: cs)

/-- The numeral at the start of a text, and the rest of the text. -/
def scan (cs : List Char) : Option (Numeral × List Char) := do
  let (negative, afterSign) := scanMinus cs
  let (whole, afterWhole) ← scanWhole afterSign
  let (fraction, afterFraction) ← scanFraction afterWhole
  let (exponent, rest) ← scanExponent afterFraction
  return (⟨negative, whole, fraction, exponent⟩, rest)

/-- The number that a whole text stands for, if it is a numeral. -/
def valueOf? (cs : List Char) : Option ℚ :=
  match scan cs with
  | some (n, []) => some n.value
  | _ => none

/-! ### A scan gives a numeral and its text -/

theorem scanDigits_sound {cs ds rest : List Char} (h : scanDigits cs = some (ds, rest)) :
    IsDigits ds ∧ ds ++ rest = cs := by
  rw [scanDigits] at h
  split at h
  · cases h
  next hne =>
    obtain ⟨rfl, rfl⟩ : _ ∧ _ := by simpa using h
    exact ⟨⟨hne, fun c hc => List.mem_takeWhile_imp hc⟩, List.takeWhile_append_dropWhile⟩

theorem scanMinus_sound (cs : List Char) :
    (if (scanMinus cs).1 then ['-'] else []) ++ (scanMinus cs).2 = cs := by
  unfold scanMinus
  split <;> rfl

theorem scanWhole_sound {cs ds rest : List Char} (h : scanWhole cs = some (ds, rest)) :
    IsWhole ds ∧ ds ++ rest = cs := by
  unfold scanWhole at h
  split at h
  · obtain ⟨rfl, rfl⟩ : _ ∧ _ := by simpa using h
    exact ⟨.inl rfl, rfl⟩
  next hzero =>
    -- A leading zero would have been taken as the whole part.
    obtain ⟨hds, happend⟩ := scanDigits_sound h
    refine ⟨.inr ⟨hds, ?_⟩, happend⟩
    intro hhead
    obtain ⟨tail, rfl⟩ := List.head?_eq_some_iff.mp hhead
    exact hzero _ happend.symm

theorem scanFraction_sound {cs ds rest : List Char} (h : scanFraction cs = some (ds, rest)) :
    (∀ c ∈ ds, c.isDigit = true) ∧ fractionText ds ++ rest = cs := by
  unfold scanFraction at h
  split at h
  · obtain ⟨hds, rfl⟩ := scanDigits_sound h
    refine ⟨hds.2, ?_⟩
    rw [fractionText, if_neg hds.1]
    rfl
  · obtain ⟨rfl, rfl⟩ : _ ∧ _ := by simpa using h
    exact ⟨by simp, rfl⟩

theorem scanSign_sound (cs : List Char) :
    ((scanSign cs).1 = [] ∨ (scanSign cs).1 = ['+'] ∨ (scanSign cs).1 = ['-']) ∧
      (scanSign cs).1 ++ (scanSign cs).2 = cs := by
  unfold scanSign
  split <;> simp

theorem scanExponent_sound {cs rest : List Char} {exponent : Option Exponent}
    (h : scanExponent cs = some (exponent, rest)) :
    (∀ e ∈ exponent, e.WellFormed) ∧ exponentText exponent ++ rest = cs := by
  unfold scanExponent at h
  split at h
  · obtain ⟨rfl, rfl⟩ : _ ∧ _ := by simpa using h
    exact ⟨by simp, rfl⟩
  next c cs =>
    split at h
    next hmarker =>
      obtain ⟨⟨digits, last⟩, hdigits, heq⟩ := Option.map_eq_some_iff.mp h
      obtain ⟨rfl, rfl⟩ : _ ∧ _ := by simpa using heq
      obtain ⟨hds, happend⟩ := scanDigits_sound hdigits
      obtain ⟨hsign, hrest⟩ := scanSign_sound cs
      refine ⟨?_, ?_⟩
      · intro e he
        obtain rfl := Option.mem_some.mp he
        exact ⟨hmarker, hsign, hds⟩
      · rw [exponentText, Exponent.text, List.cons_append, List.append_assoc, happend, hrest]
    · obtain ⟨rfl, rfl⟩ : _ ∧ _ := by simpa using h
      exact ⟨by simp, rfl⟩

/-- What the scanner takes is a numeral, and nothing of the text is lost. -/
theorem scan_sound {cs rest : List Char} {n : Numeral} (h : scan cs = some (n, rest)) :
    n.WellFormed ∧ n.text ++ rest = cs := by
  unfold scan at h
  obtain ⟨⟨whole, afterWhole⟩, hwhole, h⟩ := Option.bind_eq_some_iff.mp h
  obtain ⟨⟨fraction, afterFraction⟩, hfraction, h⟩ := Option.bind_eq_some_iff.mp h
  obtain ⟨⟨exponent, last⟩, hexponent, h⟩ := Option.bind_eq_some_iff.mp h
  obtain ⟨rfl, rfl⟩ : _ ∧ _ := by simpa using h
  obtain ⟨he, rfl⟩ := scanExponent_sound hexponent
  obtain ⟨hf, rfl⟩ := scanFraction_sound hfraction
  obtain ⟨hw, happend⟩ := scanWhole_sound hwhole
  refine ⟨⟨hw, hf, he⟩, ?_⟩
  rw [text, List.append_assoc, List.append_assoc, List.append_assoc, happend]
  exact scanMinus_sound cs

theorem WellFormed.text_ne_nil {n : Numeral} (h : n.WellFormed) : n.text ≠ [] := by
  have hwhole := h.whole.isDigits.1
  rw [text]
  simp [hwhole]

theorem length_lt_of_scan {cs rest : List Char} {n : Numeral} (h : scan cs = some (n, rest)) :
    rest.length < cs.length := by
  obtain ⟨hn, rfl⟩ := scan_sound h
  have hlength := List.length_pos_iff.mpr hn.text_ne_nil
  rw [List.length_append]
  omega

/-! ### A scan takes the longest numeral -/

/-- Digits do not go on in a text. -/
def NoDigit (rest : List Char) : Prop := ∀ c ∈ rest.head?, c.isDigit = false

/-- A numeral does not go on in a text. -/
def Stops (rest : List Char) : Prop :=
  ∀ c ∈ rest.head?, c.isDigit = false ∧ c ≠ '.' ∧ c ≠ 'e' ∧ c ≠ 'E'

theorem Stops.noDigit {rest : List Char} (h : Stops rest) : NoDigit rest :=
  fun c hc => (h c hc).1

theorem scanDigits_append {ds rest : List Char} (h : IsDigits ds) (hrest : NoDigit rest) :
    scanDigits (ds ++ rest) = some (ds, rest) := by
  have htake : rest.takeWhile Char.isDigit = [] ∧ rest.dropWhile Char.isDigit = rest := by
    cases rest with
    | nil => exact ⟨rfl, rfl⟩
    | cons c rest =>
        have hc : c.isDigit = false := hrest c rfl
        simp [hc]
  rw [scanDigits, List.takeWhile_append_of_pos h.2, List.dropWhile_append_of_pos h.2, htake.1,
    htake.2, List.append_nil, if_neg h.1]

theorem scanMinus_append (negative : Bool) {rest : List Char} (h : rest.head? ≠ some '-') :
    scanMinus ((if negative then ['-'] else []) ++ rest) = (negative, rest) := by
  cases negative with
  | true => rfl
  | false =>
      show scanMinus rest = (false, rest)
      unfold scanMinus
      split
      · exact absurd rfl h
      · rfl

theorem scanWhole_append {ds rest : List Char} (h : IsWhole ds) (hrest : NoDigit rest) :
    scanWhole (ds ++ rest) = some (ds, rest) := by
  rcases h with rfl | ⟨hds, hhead⟩
  · rfl
  · unfold scanWhole
    split
    next cs heq =>
      exfalso
      apply hhead
      cases ds with
      | nil => exact absurd rfl hds.1
      | cons c ds =>
          obtain ⟨rfl, -⟩ := List.cons.inj heq
          rfl
    · exact scanDigits_append hds hrest

theorem scanFraction_append {ds rest : List Char} (h : ∀ c ∈ ds, c.isDigit = true)
    (hpoint : rest.head? ≠ some '.') (hrest : NoDigit rest) :
    scanFraction (fractionText ds ++ rest) = some (ds, rest) := by
  by_cases hds : ds = []
  · rw [fractionText, if_pos hds, hds, List.nil_append]
    unfold scanFraction
    split
    · exact absurd rfl hpoint
    · rfl
  · rw [fractionText, if_neg hds]
    exact scanDigits_append ⟨hds, h⟩ hrest

theorem scanSign_append {sign rest : List Char} (h : sign = [] ∨ sign = ['+'] ∨ sign = ['-'])
    (hplus : rest.head? ≠ some '+') (hminus : rest.head? ≠ some '-') :
    scanSign (sign ++ rest) = (sign, rest) := by
  rcases h with rfl | rfl | rfl
  · show scanSign rest = ([], rest)
    unfold scanSign
    split
    · exact absurd rfl hplus
    · exact absurd rfl hminus
    · rfl
  · rfl
  · rfl

/-- What starts with digits does not start with any other character. -/
theorem IsDigits.head?_append_ne {ds : List Char} (h : IsDigits ds) (rest : List Char) {c : Char}
    (hc : c.isDigit = false) : (ds ++ rest).head? ≠ some c := by
  obtain ⟨hne, hall⟩ := h
  cases ds with
  | nil => exact absurd rfl hne
  | cons d ds =>
      intro heq
      obtain rfl : d = c := by simpa using heq
      rw [hall d List.mem_cons_self] at hc
      cases hc

theorem scanExponent_append {exponent : Option Exponent} {rest : List Char}
    (h : ∀ e ∈ exponent, e.WellFormed) (hrest : Stops rest) :
    scanExponent (exponentText exponent ++ rest) = some (exponent, rest) := by
  cases exponent with
  | none =>
      show scanExponent rest = some (none, rest)
      cases rest with
      | nil => rfl
      | cons c rest =>
          obtain ⟨-, -, he, hE⟩ := hrest c rfl
          rw [scanExponent, if_neg (by simp [he, hE])]
  | some e =>
      obtain ⟨hmarker, hsign, hdigits⟩ := h e rfl
      have hscan := scanSign_append hsign
        (hdigits.head?_append_ne rest (c := '+') (by decide))
        (hdigits.head?_append_ne rest (c := '-') (by decide))
      show scanExponent (e.marker :: (e.sign ++ e.digits) ++ rest) = _
      rw [List.cons_append, List.append_assoc, scanExponent, if_pos hmarker, hscan,
        scanDigits_append hdigits hrest.noDigit]
      rfl

/-- Behind a whole part and behind a fraction comes no digit. -/
theorem noDigit_exponentText {exponent : Option Exponent} {rest : List Char}
    (h : ∀ e ∈ exponent, e.WellFormed) (hrest : Stops rest) :
    NoDigit (exponentText exponent ++ rest) ∧
      (exponentText exponent ++ rest).head? ≠ some '.' := by
  cases exponent with
  | none =>
      refine ⟨hrest.noDigit, ?_⟩
      intro hhead
      exact (hrest '.' hhead).2.1 rfl
  | some e =>
      have hmarker := (h e rfl).marker
      constructor
      · intro c hc
        obtain rfl : e.marker = c := by simpa [exponentText, Exponent.text] using hc
        rcases hmarker with hm | hm <;> rw [hm] <;> decide
      · intro hhead
        obtain hdot : e.marker = '.' := by simpa [exponentText, Exponent.text] using hhead
        rcases hmarker with hm | hm <;> rw [hdot] at hm <;> revert hm <;> decide

theorem noDigit_fractionText (ds : List Char) {rest : List Char} (hrest : NoDigit rest) :
    NoDigit (fractionText ds ++ rest) := by
  by_cases hds : ds = []
  · rw [fractionText, if_pos hds]
    exact hrest
  · rw [fractionText, if_neg hds]
    intro c hc
    obtain rfl : '.' = c := by simpa using hc
    decide

/-- A numeral that does not go on is taken as it was written. -/
theorem WellFormed.scan_text {n : Numeral} (h : n.WellFormed) {rest : List Char}
    (hrest : Stops rest) : scan (n.text ++ rest) = some (n, rest) := by
  obtain ⟨hnodigit, hpoint⟩ := noDigit_exponentText h.exponent hrest
  have hminus : (n.whole ++ (fractionText n.fraction ++ (exponentText n.exponent ++ rest))).head? ≠
      some '-' := h.whole.isDigits.head?_append_ne _ (by decide)
  have htext : n.text ++ rest = (if n.negative then ['-'] else []) ++
      (n.whole ++ (fractionText n.fraction ++ (exponentText n.exponent ++ rest))) := by
    simp only [text, List.append_assoc]
  rw [htext, scan, scanMinus_append _ hminus]
  simp only [scanWhole_append h.whole (noDigit_fractionText _ hnodigit),
    scanFraction_append h.fraction hpoint hnodigit, scanExponent_append h.exponent hrest,
    Option.bind_eq_bind, Option.bind_some]
  rfl

/-- The value of a numeral is that of its text. -/
theorem WellFormed.valueOf?_text {n : Numeral} (h : n.WellFormed) :
    valueOf? n.text = some n.value := by
  have hscan := @WellFormed.scan_text n h [] (fun c hc => by cases hc)
  rw [List.append_nil] at hscan
  rw [valueOf?, hscan]

end Numeral
end PlantStore
